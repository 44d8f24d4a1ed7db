import Mathlib.Algebra.Group.Nat.Defs
import Mathlib.Data.List.Flatten
import PgColumnar.Lib.Run
import PgColumnar.Parallel.Scan

/-!
# Scans of a range of item pointers

An item pointer of a columnar table is a row number in another form.  A scan of a range of
them turns its bounds into an interval of row numbers, reads from the catalog which row
groups reach into the interval, and lets the reader return the rows of these groups only.

The groups are looked up under the snapshot of the scan, the reader looks under a copy of
it with a later command id.  What the start of the scan has flushed only the second sees.

## Main definitions

* `rowRange`, `tidRangeRows` — the bounds as row numbers, and the scan between them.

## Main results

* `tidRangeRows_eq_iff` — one scan.
* `run_exact_iff` — all scans of a run.
-/

namespace PgColumnar.TidRange

open Parallel List Nat

/-! ## Item pointers -/

/-- `ItemPointerData` -/
structure ItemPointer where
  block : UInt32
  offset : UInt16
  deriving DecidableEq

/-- `ItemPointerCompare(a, b) <= 0` -/
def ItemPointer.le (a b : ItemPointer) : Prop :=
  a.block < b.block ∨ a.block = b.block ∧ a.offset ≤ b.offset

instance (a b : ItemPointer) : Decidable (a.le b) := by
  unfold ItemPointer.le
  infer_instance

/-- `COLUMNAR_VALID_ITEMPOINTER_OFFSETS`, which the block size of the server decides. -/
structure BlockOffsets where
  k : ℕ
  pos : 0 < k
  lt : k < 2 ^ 16

/-- 8 kB blocks. -/
def BlockOffsets.default : BlockOffsets := ⟨291, by decide, by decide⟩

variable (K : BlockOffsets)

/-- `PgColumnarRowNumberToItemPointer` -/
def rowNumberToItemPointer (rowNumber : ℕ) : ItemPointer :=
  ⟨.ofNat (rowNumber / K.k), .ofNat (rowNumber % K.k + 1)⟩

/-- `PgColumnarItemPointerToRowNumber` -/
def itemPointerToRowNumber (tid : ItemPointer) : ℕ :=
  tid.block.toNat * K.k + (tid.offset.toNat - 1)

/-- The bound `lo` of `pgcolumnar_scan_set_tidrange`. -/
def lowerRow (mintid : ItemPointer) : ℕ :=
  if mintid.offset.toNat < 1 then mintid.block.toNat * K.k
  else if K.k < mintid.offset.toNat then (mintid.block.toNat + 1) * K.k
  else mintid.block.toNat * K.k + (mintid.offset.toNat - 1)

/-- The bounds `lo` and `hi` of `pgcolumnar_scan_set_tidrange`. -/
def rowRange (mintid maxtid : ItemPointer) : ℕ × ℕ :=
  if K.k < maxtid.offset.toNat then
    (lowerRow K mintid, maxtid.block.toNat * K.k + (K.k - 1))
  else if 1 ≤ maxtid.offset.toNat then
    (lowerRow K mintid, maxtid.block.toNat * K.k + (maxtid.offset.toNat - 1))
  else if 0 < maxtid.block.toNat then (lowerRow K mintid, maxtid.block.toNat * K.k - 1)
  else (1, 0)

variable {K} {mintid maxtid tid : ItemPointer}

theorem offset_rowNumberToItemPointer (rowNumber : ℕ) :
    (rowNumberToItemPointer K rowNumber).offset.toNat = rowNumber % K.k + 1 := by
  have hmod := mod_lt rowNumber K.pos
  have hk := K.lt
  have hlt : rowNumber % K.k + 1 < 2 ^ 16 := by omega
  exact UInt16.toNat_ofNat_of_lt' hlt

theorem ItemPointer.le_iff {a b : ItemPointer} : a.le b ↔ a.block.toNat < b.block.toNat ∨
      a.block.toNat = b.block.toNat ∧ a.offset.toNat ≤ b.offset.toNat := by
  unfold ItemPointer.le
  rw [UInt32.lt_iff_toNat_lt, ← UInt32.toNat_inj, UInt16.le_iff_toNat_le]

/-- Blocks come before offsets in a row number. -/
theorem block_mul_le {b c k : ℕ} (h : b < c) : b * k + k ≤ c * k := by
  rw [← succ_mul]
  exact mul_le_mul_right k h

theorem lowerRow_le_iff (h₁ : 1 ≤ tid.offset.toNat) (hk : tid.offset.toNat ≤ K.k) :
    lowerRow K mintid ≤ itemPointerToRowNumber K tid ↔ mintid.le tid := by
  rw [ItemPointer.le_iff, lowerRow, itemPointerToRowNumber, succ_mul]
  obtain hlt | heq | hgt := lt_trichotomy mintid.block.toNat tid.block.toNat
  · have := @block_mul_le _ _ K.k hlt
    split_ifs <;> omega
  · rw [heq]
    split_ifs <;> omega
  · have := @block_mul_le _ _ K.k hgt
    split_ifs <;> omega

/-- **The interval is the range**, for item pointers that a row can have. -/
theorem rowRange_iff (h₁ : 1 ≤ tid.offset.toNat) (hk : tid.offset.toNat ≤ K.k) :
    (rowRange K mintid maxtid).1 ≤ itemPointerToRowNumber K tid ∧
        itemPointerToRowNumber K tid ≤ (rowRange K mintid maxtid).2 ↔
      mintid.le tid ∧ tid.le maxtid := by
  have hlow := @lowerRow_le_iff K mintid tid h₁ hk
  have hpos := K.pos
  have hupper : itemPointerToRowNumber K tid = tid.block.toNat * K.k + (tid.offset.toNat - 1) := rfl
  rw [← hlow, ItemPointer.le_iff, rowRange]
  obtain hlt | heq | hgt := lt_trichotomy tid.block.toNat maxtid.block.toNat
  · have := @block_mul_le _ _ K.k hlt
    split_ifs <;> simp only <;> omega
  · rw [heq] at hupper ⊢
    split_ifs with hpast hfirst hblock
    · simp only [true_and]
      omega
    · simp only [true_and]
      omega
    · -- the last row before the block
      simp only [true_and]
      have := @block_mul_le _ _ K.k hblock
      omega
    · simp only [true_and]
      omega
  · have := @block_mul_le _ _ K.k hgt
    split_ifs <;> simp only <;> omega

/-! ## The scan -/

variable {α : Type} (base : ℕ)

/-- An open scan of a range: who scans, under which snapshot. -/
structure TidScan where
  top : ℕ
  snapshot : ScanSnapshot
  deriving DecidableEq

/-- A sequential scan by the same transaction under the same snapshot. -/
def TidScan.sequential (sc : TidScan) : Scan α :=
  ⟨sc.top, .tableAm, none, sc.snapshot, none, none, 0, none, []⟩

/-- The group has a row number in the interval. -/
def reaches (range : ℕ × ℕ) (g : RowGroup α) : Bool :=
  decide (¬ (g.rows.length = 0 ∨ range.2 < g.firstRowNumber ∨
    g.firstRowNumber + g.rows.length - 1 < range.1))

/-- `rangeGroups` of `pgcolumnar_scan_set_tidrange`, from the catalog under the snapshot of
the scan itself. -/
def rangeGroups (s : State α) (sc : TidScan) (range : ℕ × ℕ) : List ℕ :=
  if range.1 ≤ range.2 then
    ((s.groupList base sc.top none sc.snapshot).filter (reaches range)).map (·.groupNumber)
  else []

/-- The snapshot of the reader. -/
def metaSnapshot (s : State α) (sc : TidScan) : ScanSnapshot :=
  catalogSnapshot (s.now sc.top) sc.snapshot

/-- The rows that `pgcolumnar_scan_getnextslot` returns from a group. -/
def slots (K : BlockOffsets) (s : State α) (sc : TidScan) (g : RowGroup α) :
    List (ItemPointer × α) :=
  (groupRows (s.read sc.top (metaSnapshot s sc) s.masks) none g).map fun r =>
    (rowNumberToItemPointer K r.1, r.2)

/-- `pgcolumnar_scan_set_tidrange`, and `pgcolumnar_scan_getnextslot_tidrange` until it
returns nothing.  The executor asks for the first row as soon as the range is set, and the
reader of an earlier range has been ended.  The reader sorts the numbers it is restricted to
and finds a group's by binary search. -/
def tidRangeRows (K : BlockOffsets) (s : State α) (sc : TidScan) (mintid maxtid : ItemPointer) :
    List (ItemPointer × α) :=
  let range := rowRange K mintid maxtid
  let groups := rangeGroups base s sc range
  if range.2 < range.1 ∨ groups.isEmpty = true then []
  else
    (((s.groupList base sc.top none (metaSnapshot s sc)).filter fun g =>
        decide (g.groupNumber ∈ groups)).flatMap (slots K s sc)).filter fun r =>
      decide (range.1 ≤ itemPointerToRowNumber K r.1 ∧ itemPointerToRowNumber K r.1 ≤ range.2)

/-- What a sequential scan returns. -/
def sequentialRows (K : BlockOffsets) (s : State α) (sc : TidScan) : List (ItemPointer × α) :=
  (s.serialRows base (fun _ => true) sc.sequential).map fun r =>
    (rowNumberToItemPointer K r.1, r.2)

/-- The item pointer lies within the bounds. -/
def within (mintid maxtid : ItemPointer) (r : ItemPointer × α) : Bool :=
  decide (mintid.le r.1 ∧ r.1.le maxtid)

/-- Each group the reader sees with a row of the range is seen under the snapshot of the
scan itself, and has a row number in the interval. -/
def InSight (K : BlockOffsets) (s : State α) (sc : TidScan) (mintid maxtid : ItemPointer) : Prop :=
  ∀ g ∈ s.groupList base sc.top none (metaSnapshot s sc),
    (∃ r ∈ slots K s sc g, within mintid maxtid r = true) →
      ∃ g' ∈ s.groupList base sc.top none sc.snapshot,
        g'.groupNumber = g.groupNumber ∧ reaches (rowRange K mintid maxtid) g' = true

instance [DecidableEq α] (s : State α) (sc : TidScan) (mintid maxtid : ItemPointer) :
    Decidable (InSight base K s sc mintid maxtid) := by
  unfold InSight
  infer_instance

/-! ## One scan -/

variable {base} {s : State α} {sc : TidScan}

theorem sequentialRows_eq : sequentialRows base K s sc =
    (s.groupList base sc.top none (metaSnapshot s sc)).flatMap (slots K s sc) := by
  rw [sequentialRows, State.serialRows, filter_true, map_flatMap]
  rfl

theorem slots_offset {g : RowGroup α} {r : ItemPointer × α} (hr : r ∈ slots K s sc g) :
    1 ≤ r.1.offset.toNat ∧ r.1.offset.toNat ≤ K.k := by
  obtain ⟨q, -, rfl⟩ := mem_map.mp hr
  have hmod := mod_lt q.1 K.pos
  have hoff := @offset_rowNumberToItemPointer K q.1
  constructor
  · rw [hoff]
    exact le_add_left 1 _
  · rw [hoff]
    exact hmod

/-- For the rows of a group the interval is the range. -/
theorem filter_slots {g : RowGroup α} : ((slots K s sc g).filter fun r =>
      decide ((rowRange K mintid maxtid).1 ≤ itemPointerToRowNumber K r.1 ∧
        itemPointerToRowNumber K r.1 ≤ (rowRange K mintid maxtid).2)) =
    (slots K s sc g).filter (within mintid maxtid) := by
  refine filter_congr fun r hr => ?_
  obtain ⟨h₁, hk⟩ := slots_offset hr
  rw [within, decide_eq_decide]
  exact rowRange_iff h₁ hk

/-- Leaving out some of the parts changes nothing if those are empty, and only then. -/
theorem flatMap_filter_eq_iff {β γ : Type*} {p : β → Bool} {f : β → List γ} {l : List β} :
    (l.filter p).flatMap f = l.flatMap f ↔ ∀ b ∈ l, f b ≠ [] → p b = true := by
  have hle : ∀ l : List β, ((l.filter p).flatMap f).length ≤ (l.flatMap f).length :=
    fun l => (List.Sublist.flatMap filter_sublist f).length_le
  induction l with
  | nil => simp
  | cons b l ih =>
    rw [forall_mem_cons]
    refine Iff.trans ?_ (and_congr_right fun _ => ih)
    cases hp : p b with
    | true =>
      rw [filter_cons_of_pos hp, flatMap_cons, flatMap_cons, append_cancel_left_eq]
      simp
    | false =>
      rw [filter_cons_of_neg (by simp [hp]), flatMap_cons]
      constructor
      · intro h
        -- the parts left out are not made up for by the others
        have hlen := congrArg List.length h
        have := hle l
        rw [length_append] at hlen
        have hb : f b = [] := eq_nil_of_length_eq_zero (by omega)
        rw [hb] at h
        exact ⟨fun hne => absurd hb hne, h⟩
      · intro h
        have hb : f b = [] := by
          by_contra hne
          cases h.1 hne
        rw [hb, h.2]
        rfl

/-- The rows of the range, from the groups that were looked up. -/
theorem tidRangeRows_eq : tidRangeRows base K s sc mintid maxtid =
    ((s.groupList base sc.top none (metaSnapshot s sc)).filter fun g =>
      decide (g.groupNumber ∈ rangeGroups base s sc (rowRange K mintid maxtid))).flatMap fun g =>
        (slots K s sc g).filter (within mintid maxtid) := by
  unfold tidRangeRows
  simp only
  split
  · next h =>
    have hnil : rangeGroups base s sc (rowRange K mintid maxtid) = [] := by
      rcases h with h | h
      · exact if_neg (not_le.mpr h)
      · exact isEmpty_iff.mp h
    simp [hnil]
  · rw [filter_flatMap]
    simp only [filter_slots]

/-- **One scan of a range**: it is the filtered sequential scan if, and only if, the groups with
rows of the range are in sight. -/
theorem tidRangeRows_eq_iff : tidRangeRows base K s sc mintid maxtid =
      (sequentialRows base K s sc).filter (within mintid maxtid) ↔
    InSight base K s sc mintid maxtid := by
  rw [tidRangeRows_eq, sequentialRows_eq, filter_flatMap, flatMap_filter_eq_iff]
  refine forall₂_congr fun g hg => ?_
  have hrows : (slots K s sc g).filter (within mintid maxtid) ≠ [] ↔
      ∃ r ∈ slots K s sc g, within mintid maxtid r = true := by
    rw [Ne, filter_eq_nil_iff]
    push Not
    rfl
  rw [hrows, decide_eq_true_iff]
  refine imp_congr_right fun h => ?_
  obtain ⟨r, hr, hin⟩ := h
  obtain ⟨h₁, hk⟩ := slots_offset hr
  have hrange := (@rowRange_iff K mintid maxtid r.1 h₁ hk).mpr (of_decide_eq_true hin)
  rw [rangeGroups, if_pos (hrange.1.trans hrange.2), mem_map]
  constructor
  · intro h
    obtain ⟨g', hg', hnum⟩ := h
    obtain ⟨hmem, hreach⟩ := mem_filter.mp hg'
    exact ⟨g', hmem, hnum, hreach⟩
  · intro h
    obtain ⟨g', hmem, hnum, hreach⟩ := h
    exact ⟨g', mem_filter.mpr ⟨hmem, hreach⟩, hnum⟩

theorem itemPointerToRowNumber_rowNumberToItemPointer {rowNumber : ℕ}
    (h : rowNumber < 2 ^ 32 * K.k) :
    itemPointerToRowNumber K (rowNumberToItemPointer K rowNumber) = rowNumber := by
  have hdiv : rowNumber / K.k < 2 ^ 32 := (div_lt_iff_lt_mul K.pos).mpr h
  have hblock : (rowNumberToItemPointer K rowNumber).block.toNat = rowNumber / K.k :=
    UInt32.toNat_ofNat_of_lt' hdiv
  rw [itemPointerToRowNumber, offset_rowNumberToItemPointer, hblock, Nat.add_sub_cancel,
    Nat.mul_comm]
  exact div_add_mod rowNumber K.k

/-! ## Runs -/

/-- What a scan of a range has returned. -/
structure Answer (α : Type) where
  mintid : ItemPointer
  maxtid : ItemPointer
  rows : List (ItemPointer × α)
  /-- What a sequential scan under the same snapshot returns at the time. -/
  sequential : List (ItemPointer × α)

/-- They are the rows of the sequential scan with an item pointer within the bounds. -/
def Answer.Exact (a : Answer α) : Prop := a.rows = a.sequential.filter (within a.mintid a.maxtid)

/-- A database, with a scan of a range of item pointers of the relation. -/
structure Session (α : Type) where
  db : State α
  scan : Option TidScan
  answers : List (Answer α)

def Session.init (lazy : ℕ → Bool) : Session α := ⟨.init lazy, none, []⟩

inductive Action (α : Type) where
  /-- Whatever else goes on, in the scanning transaction too. -/
  | db (a : Parallel.Action α)
  /-- `pgcolumnar_scan_begin` in subtransaction `x` -/
  | beginScan (x : ℕ) (snapshot : ScanSnapshot)
  /-- The range is set and scanned, after the start or after a rescan. -/
  | scanRange (mintid maxtid : ItemPointer)
  | endScan

variable (base) (K) (canMatch : RowGroup α → Bool)

def step (s : Session α) : Action α → Option (Session α)
  | .db a => (Parallel.step base canMatch s.db a).map fun db => { s with db := db }
  | .beginScan x snapshot =>
    if s.scan.isNone = true ∧ s.db.clock.status x = .running ∧
        s.db.clock.status (s.db.top x) = .running ∧ s.db.canScan .tableAm snapshot = true then
      -- the write state and the delete marks are flushed first
      (s.db.flush x false).map fun db =>
        { s with db := db, scan := some ⟨s.db.top x, snapshot⟩ }
    else none
  | .scanRange mintid maxtid => s.scan.map fun sc =>
      { s with answers := s.answers ++ [⟨mintid, maxtid,
          tidRangeRows base K s.db sc mintid maxtid, sequentialRows base K s.db sc⟩] }
  | .endScan => s.scan.map fun _ => { s with scan := none }

/-- Where a range is scanned, the groups with rows of it are in sight. -/
def Sighted (s : Session α) : Action α → Prop
  | .scanRange mintid maxtid => ∀ sc ∈ s.scan, InSight base K s.db sc mintid maxtid
  | _ => True

instance [DecidableEq α] (s : Session α) (a : Action α) : Decidable (Sighted K base s a) := by
  cases a <;> (unfold Sighted; infer_instance)

variable {base K canMatch} {s s' : Session α} {a : Action α}

/-- A step adds an answer only where a range is scanned, and it is exact where the groups are in
sight. -/
theorem step_exact_iff (h : step K base canMatch s a = some s') :
    (∀ r ∈ s'.answers, r.Exact) ↔ (∀ r ∈ s.answers, r.Exact) ∧ Sighted K base s a := by
  cases a with
  | db a =>
    obtain ⟨db, -, rfl⟩ := Option.map_eq_some_iff.mp h
    exact (and_iff_left trivial).symm
  | beginScan x snapshot =>
    obtain ⟨_, h⟩ := Option.ite_none_right_eq_some.mp h
    obtain ⟨db, -, rfl⟩ := Option.map_eq_some_iff.mp h
    exact (and_iff_left trivial).symm
  | scanRange mintid maxtid =>
    obtain ⟨sc, hsc, rfl⟩ := Option.map_eq_some_iff.mp h
    have hsight : Sighted K base s (.scanRange mintid maxtid) ↔
        InSight base K s.db sc mintid maxtid := by
      simp only [Sighted, hsc, Option.mem_some_iff, forall_eq']
    rw [hsight, ← tidRangeRows_eq_iff]
    simp only [forall_mem_append, forall_mem_singleton, Answer.Exact]
  | endScan =>
    obtain ⟨sc, -, rfl⟩ := Option.map_eq_some_iff.mp h
    exact (and_iff_left trivial).symm

theorem run_answers_iff {as : List (Action α)} (h : Run.run (step K base canMatch) s as = some s') :
    (∀ r ∈ s'.answers, r.Exact) ↔
      (∀ r ∈ s.answers, r.Exact) ∧ Run.AllSteps (step K base canMatch) (Sighted K base) s as := by
  induction as generalizing s with
  | nil =>
    cases h
    exact (and_iff_left trivial).symm
  | cons a as ih =>
    obtain ⟨t, ht, hrun⟩ := Run.run_cons.mp h
    rw [ih hrun, step_exact_iff ht, and_assoc]
    refine and_congr_right fun _ => and_congr_right fun _ => ?_
    constructor
    · intro hall u hu
      rw [ht] at hu
      cases hu
      exact hall
    · intro hall
      exact hall t ht

/-- **Scans of a range.**  In a run they all return the rows of the sequential scan that lie within
the bounds if, and only if, each range is scanned with the groups of its rows in sight.  A group
that the start of the scan has flushed is not. -/
theorem run_exact_iff {lazy : ℕ → Bool} {as : List (Action α)}
    (h : Run.run (step K base canMatch) (Session.init lazy) as = some s') :
    (∀ r ∈ s'.answers, r.Exact) ↔
      Run.AllSteps (step K base canMatch) (Sighted K base) (Session.init lazy) as := by
  rw [run_answers_iff h]
  exact and_iff_right fun r hr => absurd hr not_mem_nil

/-- Two rows that an earlier statement of the transaction has written. -/
def flushedBefore : List (Action ℕ) :=
  [.db .begin, .db (.buffer 0 ⟨7, 1, 1, [(0, 10), (0, 11)]⟩), .db (.flush 0), .db (.commandEnd 0),
    .db .takeSnapshot, .beginScan 0 (.mvcc ⟨1, [0]⟩ 1), .scanRange ⟨0, 0⟩ ⟨0, 2⟩]

/-- The rows are still buffered, as those of `INSERT .. SELECT f(g)` are when `f` scans, and the
start of the scan writes them. -/
def flushedByScan : List (Action ℕ) :=
  [.db .begin, .db (.buffer 0 ⟨7, 1, 1, [(0, 10), (0, 11)]⟩), .db (.commandEnd 0),
    .db .takeSnapshot, .beginScan 0 (.mvcc ⟨1, [0]⟩ 1), .scanRange ⟨0, 0⟩ ⟨0, 2⟩]

theorem run_exact_flushedBefore :
    ∃ s, Run.run (step .default 7 fun _ => true) (Session.init fun _ => false) flushedBefore =
      some s ∧
      ∀ r ∈ s.answers, r.Exact := by
  have hrun : (Run.run (step .default 7 fun _ => true)
    (Session.init fun _ => false) flushedBefore).isSome = true :=
    rfl
  obtain ⟨s, hs⟩ := Option.isSome_iff_exists.mp hrun
  exact ⟨s, hs, (run_exact_iff hs).mpr (by decide)⟩

theorem not_run_exact :
    ¬ ∀ s, Run.run (step .default 7 fun _ => true) (Session.init fun _ => false) flushedByScan =
      some s →
      ∀ r ∈ s.answers, r.Exact := by
  intro h
  have hexact := h _ rfl _ (mem_singleton_self _)
  have hrows : ([] : List (ItemPointer × ℕ)) = [(⟨0, 2⟩, 10)] := hexact
  cases hrows

end PgColumnar.TidRange
