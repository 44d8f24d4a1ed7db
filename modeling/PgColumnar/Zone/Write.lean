import PgColumnar.Encoding.Value
import PgColumnar.Lib.Compare

/-!
# Zone maps as the writer builds and stores them

While rows are buffered, each column of each vector keeps the least and the greatest value
seen, and for a range type the greatest upper bound (`PgColumnarWriteRow`).  The flush
writes one zone map for each vector and one for the whole chunk, folded from those of the
vectors (`flush_one_column`).  A zone map is a row of `pgcolumnar.zone_map`, whose columns
for the bounds may be NULL.

The type of the values, their storage and their comparisons are parameters: they belong to
the column's type.

## Main definitions

* `ColumnBuffer.add`, `chunkZone` — extremes row by row, and of a chunk.
* `stored` — a zone map that was stored and read back.

## Main results

* `extremes_chunkMinMax` — they are those of the values.
-/

namespace PgColumnar.Zone

open Bytes Encoding Compare List Int

/-- `RangeBound` of PostgreSQL. -/
structure RangeBound (ε : Type*) where
  val : ε
  infinite : Bool
  inclusive : Bool
  lower : Bool
  deriving DecidableEq

/-- What the writer knows of a range type: `range_deserialize` (nothing for an empty range),
and the comparison and storage of the element type. -/
structure RangeDef (α ε : Type*) where
  deserialize : α → Option (RangeBound ε × RangeBound ε)
  elemCmp : ε → ε → ℤ
  elemCodec : ValueCodec ε

/-- `PgColumnarColumnDef`: the storage of the values, the btree comparison of an orderable
type, the integer that a direct comparison reads instead, and what a range type adds. -/
structure ColumnDef (α ε : Type*) where
  codec : ValueCodec α
  cmp : Option (α → α → ℤ)
  fastCmp : Option (α → ℤ)
  range : Option (RangeDef α ε)

variable {α ε : Type*}

/-- `pgcolumnar_cmp_value`, with the comparison of the type. -/
def ColumnDef.cmpValue (col : ColumnDef α ε) (cmp : α → α → ℤ) (a b : α) : ℤ :=
  match col.fastCmp with
  | some key => if key a < key b then -1 else if key b < key a then 1 else 0
  | none => cmp a b

/-- The greatest upper bound so far: `hasMaxUpper`, `upperUnbounded` and `maxUpper`. -/
structure Upper (ε : Type*) where
  has : Bool
  unbounded : Bool
  val : Option ε
  deriving DecidableEq

def Upper.start : Upper ε := ⟨false, false, none⟩

/-- The part of `ColumnChunkBuffer` that the zone map is made from. -/
structure ColumnBuffer (α ε : Type*) where
  rowCount : ℕ
  valueCount : ℕ
  minMax : Option (α × α)
  upper : Upper ε

def ColumnBuffer.start : ColumnBuffer α ε := ⟨0, 0, none, .start⟩

/-! ### `PgColumnarWriteRow` -/

/-- Maintain the least and the greatest value. -/
def addMinMax (cmpValue : α → α → ℤ) (v : α) : Option (α × α) → α × α
  | none => (v, v)
  | some (lo, hi) =>
    if 0 < cmpValue v hi then (lo, v)
    else if cmpValue v lo < 0 then (v, hi)
    else (lo, hi)

/-- Maintain the greatest upper bound. -/
def addUpper (r : RangeDef α ε) (v : α) (u : Upper ε) : Upper ε :=
  match r.deserialize v with
  | none => u
  | some (_, upper) =>
    if upper.infinite then { u with has := true, unbounded := true }
    else if u.unbounded then u
    else if u.has then
      match u.val with
      | none => u
      | some cur => if 0 < r.elemCmp upper.val cur then { u with val := some upper.val } else u
    else { u with has := true, val := some upper.val }

/-- One row of the column. -/
def ColumnBuffer.add (col : ColumnDef α ε) (b : ColumnBuffer α ε) : Option α → ColumnBuffer α ε
  | none => { b with rowCount := b.rowCount + 1 }
  | some v =>
    { rowCount := b.rowCount + 1
      valueCount := b.valueCount + 1
      minMax :=
        match col.cmp with
        | none => b.minMax
        | some cmp => some (addMinMax (col.cmpValue cmp) v b.minMax)
      upper :=
        match col.range with
        | none => b.upper
        | some r => addUpper r v b.upper }

/-- A vector of rows. -/
def bufferOf (col : ColumnDef α ε) (rows : List (Option α)) : ColumnBuffer α ε :=
  rows.foldl (ColumnBuffer.add col) .start

/-! ### `flush_one_column` -/

/-- `NativeZoneMapMetadata`, without the sum. -/
structure ZoneMap where
  valueCount : ℕ
  nullCount : ℕ
  minMax : Option (List Byte × List Byte)
  hasMaxUpper : Bool
  upperUnbounded : Bool
  maxUpper : List Byte
  deriving DecidableEq

/-- The zone map of extremes and an upper bound. -/
def zoneOf (col : ColumnDef α ε) (rowCount valueCount : ℕ) (minMax : Option (α × α))
    (u : Upper ε) : ZoneMap where
  valueCount := valueCount
  nullCount := rowCount - valueCount
  minMax := minMax.map fun m => (col.codec.encode m.1, col.codec.encode m.2)
  hasMaxUpper := u.has
  upperUnbounded := u.has && u.unbounded
  maxUpper :=
    if u.has && !u.unbounded then
      match col.range, u.val with
      | some r, some cur => r.elemCodec.encode cur
      | _, _ => []
    else []

def vectorZone (col : ColumnDef α ε) (b : ColumnBuffer α ε) : ZoneMap :=
  zoneOf col b.rowCount b.valueCount b.minMax b.upper

/-- Fold the extremes of one more vector into those of the chunk. -/
def foldMinMax (cmp : α → α → ℤ) (chunk : Option (α × α)) : Option (α × α) → Option (α × α)
  | none => chunk
  | some (lo, hi) =>
    match chunk with
    | none => some (lo, hi)
    | some (clo, chi) =>
      some (if cmp lo clo < 0 then lo else clo, if 0 < cmp hi chi then hi else chi)

/-- Fold the upper bound of one more vector into that of the chunk. -/
def foldUpper (r : RangeDef α ε) (chunk u : Upper ε) : Upper ε :=
  if u.has then
    if !chunk.has then u
    else if u.unbounded then { chunk with unbounded := true }
    else if chunk.unbounded then chunk
    else
      match u.val, chunk.val with
      | some cur, some best =>
        if 0 < r.elemCmp cur best then { chunk with val := some cur } else chunk
      | _, _ => chunk
  else chunk

def chunkMinMax (col : ColumnDef α ε) (vectors : List (ColumnBuffer α ε)) : Option (α × α) :=
  match col.cmp with
  | none => none
  | some cmp => vectors.foldl (fun m b => foldMinMax cmp m b.minMax) none

def chunkUpper (col : ColumnDef α ε) (vectors : List (ColumnBuffer α ε)) : Upper ε :=
  match col.range with
  | none => .start
  | some r => vectors.foldl (fun u b => foldUpper r u b.upper) .start

/-- The zone map of the whole chunk. -/
def chunkZone (col : ColumnDef α ε) (vectors : List (ColumnBuffer α ε)) : ZoneMap :=
  zoneOf col (vectors.map (·.rowCount)).sum (vectors.map (·.valueCount)).sum
    (chunkMinMax col vectors) (chunkUpper col vectors)

/-! ### The catalog -/

/-- A row of `pgcolumnar.zone_map`; a column that is NULL is `none`. -/
structure ZoneRow where
  minimum : Option (List Byte)
  maximum : Option (List Byte)
  valueCount : ℕ
  nullCount : ℕ
  maxUpper : Option (List Byte)
  deriving DecidableEq

/-- `PgColumnarInsertZoneMapRow`.  A catalog that was not upgraded has no column for the
upper bound. -/
def insertZoneMap (hasColumn : Bool) (z : ZoneMap) : ZoneRow :=
  { z with
    minimum := z.minMax.map (·.1)
    maximum := z.minMax.map (·.2)
    maxUpper :=
      if hasColumn && z.hasMaxUpper then some (if z.upperUnbounded then [] else z.maxUpper)
        else none }

/-- `zonemap_from_tuple`. -/
def zonemapFromTuple (hasColumn : Bool) (row : ZoneRow) : ZoneMap :=
  { row with
    minMax := row.minimum.bind fun lo => row.maximum.map fun hi => (lo, hi)
    hasMaxUpper := hasColumn && row.maxUpper.isSome
    upperUnbounded := hasColumn && row.maxUpper.any (·.isEmpty)
    maxUpper := if hasColumn then row.maxUpper.getD [] else [] }

/-- A zone map that was stored and read back. -/
def stored (written read : Bool) (z : ZoneMap) : ZoneMap :=
  zonemapFromTuple read (insertZoneMap written z)

@[simp] theorem stored_minMax (written read : Bool) (z : ZoneMap) :
    (stored written read z).minMax = z.minMax := by
  unfold stored zonemapFromTuple insertZoneMap
  cases z.minMax <;> rfl

/-! ### The extremes bound the values -/

/-- The direct comparison is that of the type. -/
def FastCmpOk (col : ColumnDef α ε) : Prop :=
  ∀ key ∈ col.fastCmp, ∀ cmp ∈ col.cmp, ∀ a b, (cmp a b).sign = (key a - key b).sign

theorem cmpValue_sign {col : ColumnDef α ε} (hfast : FastCmpOk col) {cmp : α → α → ℤ}
    (hcmp : col.cmp = some cmp) (a b : α) : (col.cmpValue cmp a b).sign = (cmp a b).sign := by
  unfold ColumnDef.cmpValue
  cases hkey : col.fastCmp with
  | none => rfl
  | some key =>
    rw [hfast key hkey cmp hcmp a b]
    dsimp only
    split
    · next hlt =>
      rw [sign_eq_neg_one_of_neg (show key a - key b < 0 by omega)]
      rfl
    · split
      · next hgt =>
        rw [sign_eq_one_of_pos (show 0 < key a - key b by omega)]
        rfl
      · rw [show key a - key b = 0 by omega]

/-- The two values bound every value of the list, and each other. -/
structure Bounds (cmp : α → α → ℤ) (m : α × α) (vals : List α) : Prop where
  lower : ∀ v ∈ vals, cmp m.1 v ≤ 0
  upper : ∀ v ∈ vals, cmp v m.2 ≤ 0
  order : cmp m.1 m.2 ≤ 0

/-- The extremes of a list, if it has any value. -/
def Extremes (cmp : α → α → ℤ) (m : Option (α × α)) (vals : List α) : Prop :=
  (m = none → vals = []) ∧ ∀ p ∈ m, Bounds cmp p vals

variable {cmp : α → α → ℤ} {m m' : Option (α × α)} {vals vals' : List α}

theorem Bounds.singleton (hc : TotalCmp cmp) (v : α) : Bounds cmp (v, v) [v] := by
  have hself : cmp v v ≤ 0 := le_of_eq (hc.self v)
  refine ⟨fun u hu => ?_, fun u hu => ?_, hself⟩
  · rw [mem_singleton.mp hu]
    exact hself
  · rw [mem_singleton.mp hu]
    exact hself

/-- Bounds that are moved outwards bound more. -/
theorem Bounds.widen (hc : TotalCmp cmp) {p q : α × α} (h : Bounds cmp p vals)
    (hlo : cmp q.1 p.1 ≤ 0) (hhi : cmp p.2 q.2 ≤ 0) : Bounds cmp q vals where
  lower := fun v hv => hc.trans _ _ _ hlo (h.lower v hv)
  upper := fun v hv => hc.trans _ _ _ (h.upper v hv) hhi
  order := hc.trans _ _ _ hlo (hc.trans _ _ _ h.order hhi)

theorem Bounds.append {p : α × α} (h : Bounds cmp p vals) (h' : Bounds cmp p vals') :
    Bounds cmp p (vals ++ vals') where
  lower := fun v hv => (mem_append.mp hv).elim (h.lower v) (h'.lower v)
  upper := fun v hv => (mem_append.mp hv).elim (h.upper v) (h'.upper v)
  order := h.order

theorem Extremes.addMinMax (hc : TotalCmp cmp) {cmpValue : α → α → ℤ}
    (hsign : ∀ a b, (cmpValue a b).sign = (cmp a b).sign) (h : Extremes cmp m vals) (v : α) :
    Bounds cmp (addMinMax cmpValue v m) (vals ++ [v]) := by
  have hpos : ∀ a b, 0 < cmpValue a b ↔ 0 < cmp a b := by
    intro a b
    rw [← sign_pos_iff, hsign, sign_pos_iff]
  have hneg : ∀ a b, cmpValue a b < 0 ↔ cmp a b < 0 := by
    intro a b
    rw [← sign_neg_iff, hsign, sign_neg_iff]
  have hone := Bounds.singleton hc v
  have hself : ∀ u, cmp u u ≤ 0 := fun u => le_of_eq (hc.self u)
  cases m with
  | none =>
    rw [h.1 rfl]
    exact hone
  | some p =>
    obtain ⟨lo, hi⟩ := p
    have hb := h.2 (lo, hi) rfl
    unfold Zone.addMinMax
    dsimp only
    split
    · next hgt =>
      -- a new maximum
      have hiv : cmp hi v ≤ 0 := le_of_lt (hc.lt_swap.mpr ((hpos _ _).mp hgt))
      have hlov : cmp lo v ≤ 0 := hc.trans lo hi v hb.order hiv
      exact (hb.widen hc (hself lo) hiv).append (hone.widen hc hlov (hself v))
    · next hngt =>
      rw [hpos, not_lt] at hngt
      split
      · next hlt =>
        -- a new minimum
        have hvlo : cmp v lo ≤ 0 := le_of_lt ((hneg _ _).mp hlt)
        exact (hb.widen hc hvlo (hself hi)).append (hone.widen hc (hself v) hngt)
      · next hnlt =>
        rw [hneg, not_lt] at hnlt
        exact hb.append (hone.widen hc (hc.le_swap.mpr hnlt) hngt)

/-- The extremes that a vector has accumulated are those of its values. -/
theorem minMax_bufferOf {col : ColumnDef α ε} (hcmp : col.cmp = some cmp) (hc : TotalCmp cmp)
    (hfast : FastCmpOk col) (rows : List (Option α)) :
    Extremes cmp (bufferOf col rows).minMax (rows.filterMap id) := by
  induction rows using List.reverseRecOn with
  | nil => exact ⟨fun _ => rfl, nofun⟩
  | append_singleton rows r ih =>
    unfold bufferOf at ih ⊢
    rw [foldl_append, filterMap_append]
    cases r with
    | none =>
      show Extremes cmp _ (rows.filterMap id ++ [])
      rw [append_nil]
      exact ih
    | some v =>
      have hadd := ih.addMinMax hc (cmpValue_sign hfast hcmp) v
      show Extremes cmp (match col.cmp with | none => _ | some cmp => some (Zone.addMinMax _ v _)) _
      rw [hcmp]
      refine ⟨nofun, fun p hp => ?_⟩
      rw [← Option.some.inj hp]
      exact hadd

theorem Extremes.fold (hc : TotalCmp cmp) (h : Extremes cmp m vals) (h' : Extremes cmp m' vals') :
    Extremes cmp (foldMinMax cmp m m') (vals ++ vals') := by
  have hself : ∀ u, cmp u u ≤ 0 := fun u => le_of_eq (hc.self u)
  cases m' with
  | none =>
    rw [h'.1 rfl, append_nil]
    exact h
  | some p =>
    obtain ⟨lo, hi⟩ := p
    have hb' := h'.2 (lo, hi) rfl
    cases m with
    | none =>
      rw [h.1 rfl, nil_append]
      exact h'
    | some q =>
      obtain ⟨clo, chi⟩ := q
      have hb := h.2 (clo, chi) rfl
      refine ⟨nofun, fun r hr => ?_⟩
      rw [← Option.some.inj hr]
      -- either end is the outer one of the two
      have hlo : cmp (if cmp lo clo < 0 then lo else clo) lo ≤ 0 ∧
          cmp (if cmp lo clo < 0 then lo else clo) clo ≤ 0 := by
        split
        · next hlt => exact ⟨hself lo, le_of_lt hlt⟩
        · next hnlt => exact ⟨hc.le_swap.mpr (not_lt.mp hnlt), hself clo⟩
      have hhi : cmp hi (if 0 < cmp hi chi then hi else chi) ≤ 0 ∧
          cmp chi (if 0 < cmp hi chi then hi else chi) ≤ 0 := by
        split
        · next hgt => exact ⟨hself hi, le_of_lt (hc.lt_swap.mpr hgt)⟩
        · next hngt => exact ⟨not_lt.mp hngt, hself chi⟩
      exact (hb.widen hc hlo.2 hhi.2).append (hb'.widen hc hlo.1 hhi.1)

/-- The extremes of the chunk are those of the values of all its vectors. -/
theorem extremes_chunkMinMax {col : ColumnDef α ε} (hcmp : col.cmp = some cmp) (hc : TotalCmp cmp)
    (hfast : FastCmpOk col) (vectors : List (List (Option α))) :
    Extremes cmp (chunkMinMax col (vectors.map (bufferOf col))) (vectors.flatten.filterMap id) := by
  unfold chunkMinMax
  rw [hcmp]
  dsimp only
  induction vectors using List.reverseRecOn with
  | nil => exact ⟨fun _ => rfl, nofun⟩
  | append_singleton vectors rows ih =>
    rw [map_append, foldl_append, flatten_append, filterMap_append]
    show Extremes cmp (foldMinMax cmp _ (bufferOf col rows).minMax) _
    rw [flatten_cons, flatten_nil, append_nil]
    exact Extremes.fold hc ih (minMax_bufferOf hcmp hc hfast rows)

end PgColumnar.Zone
