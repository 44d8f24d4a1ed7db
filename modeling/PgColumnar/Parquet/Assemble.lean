import PgColumnar.Parquet.Schema
import PgColumnar.Parquet.Skip

/-!
# Assembling rows

The entries of each leaf of a row group are decoded into definition levels, repetition levels
and the values that are there.  The row loop (`pq_read_rows`) then takes the next record of
each bound column from its leaves, by two cursors for each leaf: an array is null at level 0
and empty at level 1, and a composite is null if a field is at level 0.

The length coercions of the types are parameters.  A read that binds by position has no
position deletes, so none are modelled, and the slot is the list of the bound columns.

## Main definitions

* `pqReadRows` — the rows from the leaf cursors.
* `Column`, `RecordGroup` — shapes of columns, and the records of a group.
* `Readable` — the columns whose levels are read as they were written.

## Main results

* `readTarget_step` — one record of a column.
* `pqReadRows_eq_iff` — exactly when the rows of the records are read.
-/

namespace PgColumnar.Parquet

open Dremel List Nat
open Option (bind_eq_bind bind_eq_some_iff map_eq_some_iff)

/-! ### The reader -/

structure Level where
  defn : ℕ
  rep : ℕ

/-- What is ahead of the two cursors of a leaf. -/
structure LeafCursor where
  levels : List Level
  vals : List Datum

/-- The value of a bound column in a row. -/
inductive SqlValue where
  | null
  | scalar (d : Datum)
  | array (elems : List (Option Datum))
  | row (fields : List (Option Datum))
  deriving DecidableEq

variable (coerceFn : TypeOid → ℤ → Datum → Option Datum)

/-- One entry: its value is taken if its level is the greatest of the leaf. -/
def takeEntry (leaf : ImpLeaf) (level : Level) (vals : List Datum) :
    Option (Option Datum × List Datum) :=
  if level.defn = leaf.maxDef then
    match vals with
    | [] => none
    | v :: vals => (pqTakeValue coerceFn leaf.plan v).map fun d => (some d, vals)
  else some (none, vals)

/-- The scalar branch; without an entry `pq_require_entry` raises an error. -/
def readScalar (leaf : ImpLeaf) (c : LeafCursor) : Option (Option Datum × LeafCursor) :=
  match c.levels with
  | [] => none
  | level :: levels => (takeEntry coerceFn leaf level c.vals).map fun r => (r.1, ⟨levels, r.2⟩)

/-- The loop over the elements of an array, which ends before an entry that does not repeat. -/
def readElements (leaf : ImpLeaf) : List Level → List Datum →
    Option (List (Option Datum) × LeafCursor)
  | [], _ => none
  | level :: levels, vals =>
    (takeEntry coerceFn leaf level vals).bind fun r =>
      match levels with
      | [] => some ([r.1], ⟨[], r.2⟩)
      | next :: _ =>
        if next.rep ≠ 0 then
          (readElements leaf levels r.2).map fun rest => (r.1 :: rest.1, rest.2)
        else some ([r.1], ⟨levels, r.2⟩)

/-- The list branch. -/
def readList (leaf : ImpLeaf) (c : LeafCursor) : Option (SqlValue × LeafCursor) :=
  match c.levels with
  | [] => none
  | level :: levels =>
    if level.defn = 0 then some (.null, ⟨levels, c.vals⟩)
    else if level.defn = 1 then some (.array [], ⟨levels, c.vals⟩)
    else (readElements coerceFn leaf c.levels c.vals).map fun r => (.array r.1, r.2)

/-- The loop over the fields of a composite: the fields, whether one of them says that the
composite is null, and the cursors. -/
def readFields : List (Option ImpLeaf) → List LeafCursor →
    Option (List (Option Datum) × Bool × List LeafCursor)
  | [], _ => some ([], false, [])
  | none :: fs, cs => (readFields fs cs).map fun r => (none :: r.1, r.2)
  | some _ :: _, [] => none
  | some leaf :: fs, c :: cs =>
    (readScalar coerceFn leaf c).bind fun r =>
      let structNull := c.levels.head?.any fun level => level.defn == 0
      (readFields fs cs).map fun rest =>
        (r.1 :: rest.1, structNull || rest.2.1, r.2 :: rest.2.2)

/-- The value of a column, and the cursors of its leaves behind it. -/
def readTarget : ImpTarget → List LeafCursor → Option (SqlValue × List LeafCursor)
  | .scalar leaf, c :: _ => (readScalar coerceFn leaf c).map fun r =>
      (r.1.elim .null .scalar, [r.2])
  | .list leaf, c :: _ => (readList coerceFn leaf c).map fun r => (r.1, [r.2])
  | .struct fields, cs => (readFields coerceFn fields cs).map fun r =>
      (if r.2.1 then .null else .row r.1, r.2.2)
  | _, [] => none

/-- How many leaves a column is bound to. -/
def ImpTarget.nleaves : ImpTarget → ℕ
  | .scalar _ => 1
  | .list _ => 1
  | .struct fields => fields.countP Option.isSome

/-- A column that is not needed stays null, and its leaves are not read. -/
def readNeeded (t : ImpTarget × Bool) (own : List LeafCursor) :
    Option (SqlValue × List LeafCursor) :=
  if t.2 then readTarget coerceFn t.1 own else some (.null, own)

/-- One row. -/
def readRow : List (ImpTarget × Bool) → List LeafCursor → Option (List SqlValue × List LeafCursor)
  | [], cs => some ([], cs)
  | t :: ts, cs => do
    let (value, own) ← readNeeded coerceFn t (cs.take t.1.nleaves)
    let (values, cs) ← readRow ts (cs.drop t.1.nleaves)
    return (value :: values, own ++ cs)

/-- The row loop of a row group. -/
def readGroup (tops : List (ImpTarget × Bool)) : ℕ → List LeafCursor →
    Option (List (List SqlValue) × List LeafCursor)
  | 0, cs => some ([], cs)
  | n + 1, cs => do
    let (row, cs) ← readRow coerceFn tops cs
    let (rows, cs) ← readGroup tops n cs
    return (row :: rows, cs)

/-- The leaves of a column that is not needed are not decoded. -/
def decodeNeeded : List (ImpTarget × Bool) → List LeafCursor → List LeafCursor
  | [], cs => cs
  | (t, need) :: ts, cs =>
    (cs.take t.nleaves).map (fun c => if need then c else ⟨[], []⟩) ++
      decodeNeeded ts (cs.drop t.nleaves)

/-- A row group: whether it is skipped, its number of rows, and what its leaves decode to. -/
structure LeafGroup where
  skip : Bool
  numRows : ℕ
  leaves : List LeafCursor

/-- `pq_read_rows`: the rows, and the cursors at the end of each row group. -/
def pqReadRows (tops : List (ImpTarget × Bool)) : List LeafGroup →
    Option (List (List SqlValue) × List (List LeafCursor))
  | [] => some ([], [])
  | g :: gs =>
    if g.skip then pqReadRows tops gs
    else do
      let (rows, cs) ← readGroup coerceFn tops g.numRows (decodeNeeded tops g.leaves)
      let (more, css) ← pqReadRows tops gs
      return (rows ++ more, cs :: css)

/-! ### The records -/

/-- The shape of a bound column in the file: a leaf that does not repeat, a leaf that repeats
once, or fields below a common path, none of which repeats. -/
inductive Column where
  | scalar (p : Path)
  | list (p : Path)
  | struct (pre : Path) (fields : List (Option Path))

/-- The fields of a composite: a dropped one has no value. -/
def Fields : List (Option Path) → Type
  | [] => Unit
  | none :: fs => Fields fs
  | some p :: fs => Value Datum p × Fields fs

/-- The records of a column. -/
def ColValue : Column → Type
  | .scalar p => Value Datum p
  | .list p => Value Datum p
  | .struct pre fields => Value (Fields fields) pre

/-- A leaf that has been decoded. -/
def cursorOf (es : List (Entry Datum)) : LeafCursor :=
  ⟨es.map fun e => ⟨e.defn, e.rep⟩, es.filterMap Entry.value⟩

/-- The leaves of the fields that a record of the composite ends in. -/
def fieldEntries {α : Type} (pre : Path) : (fs : List (Option Path)) → (α → Fields fs) →
    List (Value α pre → List (Entry Datum))
  | [], _ => []
  | none :: fs, f => fieldEntries pre fs f
  | some p :: fs, f =>
    (fun v => shredWith (fun x l r d => shredFrom p (f x).1 l r d) pre v 0 0 0) ::
      fieldEntries pre fs fun x => (f x).2

/-- How a record of the column is shredded, for each leaf of the column. -/
def Column.entries : (c : Column) → List (ColValue c → List (Entry Datum))
  | .scalar p => [shred p]
  | .list p => [shred p]
  | .struct pre fields => fieldEntries pre fields id

/-- What the leaves of a column decode to. -/
def Column.leaves (c : Column) (records : List (ColValue c)) : List LeafCursor :=
  c.entries.map fun shredLeaf => cursorOf (records.flatMap shredLeaf)

/-- The paths to the leaves of a column. -/
def Column.paths : Column → List Path
  | .scalar p => [p]
  | .list p => [p]
  | .struct pre fields => (fields.filterMap id).map (pre ++ ·)

/-! ### What the records say -/

/-- A value as it is returned. -/
def returnedValue (leaf : ImpLeaf) : Option Datum → Option (Option Datum)
  | none => some none
  | some d => (pqTakeValue coerceFn leaf.plan d).map some

def fieldValues : (fs : List (Option Path)) → List (Option ImpLeaf) → Fields fs →
    Option (List (Option Datum))
  | some p :: fs, some leaf :: leaves, x => do
    let field ← returnedValue coerceFn leaf (scalarOf p x.1)
    return field :: (← fieldValues fs leaves x.2)
  | none :: fs, none :: leaves, x => do return none :: (← fieldValues fs leaves x)
  | [], [], _ => some []
  | _, _, _ => none

/-- What a record says: a missing container is null, an empty list an empty array, a missing
element or field is null.  The values are coerced as they are read. -/
def valueOf : (t : ImpTarget) → (c : Column) → ColValue c → Option SqlValue
  | .scalar leaf, .scalar p, v =>
    (returnedValue coerceFn leaf (scalarOf p v)).map fun x => x.elim .null .scalar
  | .list leaf, .list p, v =>
    match listOf p v with
    | none => some .null
    | some xs => (xs.mapM (returnedValue coerceFn leaf)).map .array
  | .struct leaves, .struct pre fs, v =>
    match scalarOf pre v with
    | none => some .null
    | some x => (fieldValues coerceFn fs leaves x).map .row
  | _, _, _ => none

/-- A row group before it is shredded: the records of each column. -/
structure RecordGroup where
  skip : Bool
  numRows : ℕ
  chunks : List ((c : Column) × List (ColValue c))
  full : ∀ chunk ∈ chunks, chunk.2.length = numRows

/-- What the leaves of a row group decode to. -/
def RecordGroup.shredded (g : RecordGroup) : LeafGroup :=
  ⟨g.skip, g.numRows, g.chunks.flatMap fun chunk => chunk.1.leaves chunk.2⟩

/-- The value of a column in the first row; a column that is not needed is null. -/
def firstValue (t : ImpTarget × Bool) (chunk : (c : Column) × List (ColValue c)) :
    Option SqlValue :=
  match chunk.2 with
  | [] => none
  | v :: _ => if t.2 then valueOf coerceFn t.1 chunk.1 v else some .null

/-- The columns without the first row. -/
def restOf (chunks : List ((c : Column) × List (ColValue c))) :
    List ((c : Column) × List (ColValue c)) :=
  chunks.map fun chunk => ⟨chunk.1, chunk.2.tail⟩

/-- The rows of a row group. -/
def expectedGroup (tops : List (ImpTarget × Bool)) :
    ℕ → List ((c : Column) × List (ColValue c)) → Option (List (List SqlValue))
  | 0, _ => some []
  | n + 1, chunks => do
    let row ← (tops.zip chunks).mapM fun tc => firstValue coerceFn tc.1 tc.2
    return row :: (← expectedGroup tops n (restOf chunks))

/-- The rows of the row groups that are not skipped. -/
def expectedRows (tops : List (ImpTarget × Bool)) : List RecordGroup → Option (List (List SqlValue))
  | [] => some []
  | g :: gs =>
    if g.skip then expectedRows tops gs
    else do return (← expectedGroup coerceFn tops g.numRows g.chunks) ++ (← expectedRows tops gs)

/-! ### What the reader can read -/

/-- The definition level that a record begins with. -/
def firstDef (es : List (Entry Datum)) : ℕ := es.head?.elim 0 Entry.defn

/-- A missing list begins at level 0, an empty one at level 1, and one with elements above.
A composite is missing exactly if one of its leaves begins at level 0. -/
def Readable : (c : Column) → ColValue c → Prop
  | .scalar _, _ => True
  | .list p, v =>
    match listOf p v with
    | none => firstDef (shred p v) = 0
    | some [] => firstDef (shred p v) = 1
    | some (_ :: _) => 2 ≤ firstDef (shred p v)
  | .struct pre fields, v =>
    (scalarOf pre v = none ↔ ∃ shredLeaf ∈ (Column.struct pre fields).entries,
      firstDef (shredLeaf v) = 0)

/-- A field bound to a leaf that has its path; a dropped field has none. -/
def FieldBound (pre : Path) : Option ImpLeaf → Option Path → Prop
  | none, none => True
  | some leaf, some p => leaf.maxDef = maxDef (pre ++ p) ∧ maxRep (pre ++ p) = 0
  | _, _ => False

/-- A column bound to leaves that have its paths. -/
def Bound : ImpTarget → Column → Prop
  | .scalar leaf, .scalar p => leaf.maxDef = maxDef p ∧ maxRep p = 0
  | .list leaf, .list p => leaf.maxDef = maxDef p ∧ maxRep p = 1
  | .struct leaves, .struct pre fields => List.Forall₂ (FieldBound pre) leaves fields
  | _, _ => False

variable {coerceFn} {leaf : ImpLeaf} {low : ℕ} {x : Option Datum} {e : Entry Datum}
  {es rest : List (Entry Datum)}

/-! ### One entry -/

@[simp]
theorem cursorOf_cons (e : Entry Datum) (es : List (Entry Datum)) :
    cursorOf (e :: es) = ⟨⟨e.defn, e.rep⟩ :: (cursorOf es).levels, e.value.toList ++
      (cursorOf es).vals⟩ := by
  cases h : e.value <;> simp [cursorOf, h]

/-- Taking an entry returns its value, if there is one. -/
theorem takeEntry_eq (he : OfElement low leaf.maxDef x e) (vals : List Datum) :
    takeEntry coerceFn leaf ⟨e.defn, e.rep⟩ (e.value.toList ++ vals) =
      (returnedValue coerceFn leaf x).map fun y => (y, vals) := by
  unfold takeEntry
  rw [he.value]
  cases x with
  | none =>
    have hne : ¬ e.defn = leaf.maxDef := fun h => by simpa using he.high.mp h
    rw [if_neg hne]
    rfl
  | some d =>
    rw [if_pos (he.high.mpr rfl)]
    simp [returnedValue, Function.comp_def]

theorem readScalar_eq (coerceFn : TypeOid → ℤ → Datum → Option Datum)
    (he : OfElement low leaf.maxDef x e) (rest : List (Entry Datum)) :
    readScalar coerceFn leaf (cursorOf (e :: rest)) =
      (returnedValue coerceFn leaf x).map fun y => (y, cursorOf rest) := by
  simp only [readScalar, cursorOf_cons, takeEntry_eq he, Option.map_map]
  rfl

/-- The elements of a list are read up to the entry that begins the next record. -/
theorem readElements_eq (coerceFn : TypeOid → ℤ → Datum → Option Datum) {xs : List (Option Datum)}
    (rest : List (Entry Datum)) (h : List.Forall₂ (OfElement low leaf.maxDef) xs es) (hne : es ≠ [])
    (htail : ∀ e ∈ es.tail, e.rep ≠ 0) (hrest : ∀ e ∈ rest.head?, e.rep = 0) :
    readElements coerceFn leaf (cursorOf (es ++ rest)).levels (cursorOf (es ++ rest)).vals =
      (xs.mapM (returnedValue coerceFn leaf)).map fun ys => (ys, cursorOf rest) := by
  induction h with
  | nil => exact absurd rfl hne
  | @cons x e xs es he h ih =>
    rw [cons_append, cursorOf_cons, readElements, takeEntry_eq he, mapM_cons]
    cases hx : returnedValue coerceFn leaf x with
    | none => rfl
    | some y =>
      cases es with
      | nil =>
        obtain rfl : xs = [] := by simpa using h
        cases rest with
        | nil => rfl
        | cons e' rest =>
          have hrep : e'.rep = 0 := hrest e' rfl
          simp [hrep]
      | cons e' es =>
        have hrep : e'.rep ≠ 0 := htail e' mem_cons_self
        have hih := ih (cons_ne_nil _ _) fun e'' he'' => htail e'' (mem_cons_of_mem _ he'')
        rw [cons_append, cursorOf_cons] at hih
        simp only [Option.map_some, Option.bind_some, cons_append, cursorOf_cons, hrep, ne_eq,
          not_false_eq_true, if_true, hih, bind_eq_bind]
        cases xs.mapM (returnedValue coerceFn leaf) <;> rfl

/-! ### One record -/

variable {p : Path}

/-- The entries of a list record begin with repetition level 0. -/
theorem rep_head_shred (hp : maxRep p = 1) (v : Value Datum p) :
    ∃ e es, shred p v = e :: es ∧ e.rep = 0 := by
  have h := shred_list hp v 0 0
  unfold shred
  cases hv : listOf p v with
  | none =>
    rw [hv] at h
    obtain ⟨i, -, heq⟩ := h
    exact ⟨_, [], heq, rfl⟩
  | some xs =>
    rw [hv] at h
    cases xs with
    | nil => exact ⟨_, [], h, rfl⟩
    | cons x xs =>
      obtain ⟨hof, hhead, -⟩ := h
      cases hes : shredFrom p v 0 0 0 with
      | nil =>
        rw [hes] at hof
        cases hof
      | cons e es =>
        rw [hes] at hhead
        exact ⟨e, es, rfl, hhead e rfl⟩

theorem rep_head_records (hp : maxRep p = 1) (records : List (Value Datum p)) :
    ∀ e ∈ (records.flatMap (shred p)).head?, e.rep = 0 := by
  cases records with
  | nil => simp
  | cons v records =>
    obtain ⟨e, es, heq, hrep⟩ := rep_head_shred hp v
    simp [heq, hrep]

/-- **One record of an array.** -/
theorem readList_step (hdef : leaf.maxDef = maxDef p) (hp : maxRep p = 1)
    (v : Value Datum p) (records : List (Value Datum p)) {x : SqlValue}
    (hx : valueOf coerceFn (.list leaf) (.list p) v = some x) :
    ∃ y c, readList coerceFn leaf (cursorOf ((v :: records).flatMap (shred p))) = some (y, c) ∧
      (y = x ↔ Readable (.list p) v) ∧
      (Readable (.list p) v → c = cursorOf (records.flatMap (shred p))) := by
  have h := shred_list hp v 0 0
  have hnext := rep_head_records hp records
  rw [flatMap_cons]
  simp only [valueOf] at hx
  simp only [Readable]
  -- a record of one entry without a value is null, empty, or one null element
  have hone : ∀ i, shred p v = [⟨0, i, none⟩] → i ≠ leaf.maxDef →
      readList coerceFn leaf (cursorOf (shred p v ++ records.flatMap (shred p))) =
        some (if i = 0 then .null else if i = 1 then .array [] else .array [none],
          cursorOf (records.flatMap (shred p))) := by
    intro i heq hi
    have hof : List.Forall₂ (OfElement 0 leaf.maxDef) [none] [(⟨0, i, none⟩ : Entry Datum)] :=
      List.Forall₂.cons ⟨rfl, zero_le _, by simp [hi]⟩ List.Forall₂.nil
    have helems := readElements_eq coerceFn (records.flatMap (shred p)) hof
      (cons_ne_nil _ _) (by simp) hnext
    rw [heq]
    unfold readList
    rw [helems]
    by_cases h0 : i = 0
    · simp [h0, cursorOf]
    · by_cases h1 : i = 1
      · simp [h1, cursorOf]
      · simp [h0, h1, returnedValue]
  have hmax : listDef p < maxDef p := listDef_lt_maxDef (by omega)
  cases hv : listOf p v with
  | none =>
    rw [hv] at h hx
    obtain ⟨i, hi, heq⟩ := h
    rw [zero_add] at heq
    cases hx
    refine ⟨_, _, hone i heq (by omega), ?_, fun _ => rfl⟩
    rw [show shred p v = [⟨0, i, none⟩] from heq]
    by_cases h0 : i = 0
    · simp [h0, firstDef]
    · by_cases h1 : i = 1 <;> simp [h0, h1, firstDef]
  | some xs =>
    rw [hv] at h hx
    cases xs with
    | nil =>
      rw [zero_add] at h
      obtain rfl : SqlValue.array [] = x := by simpa using hx
      refine ⟨_, _, hone (listDef p) h (by omega), ?_, fun _ => rfl⟩
      rw [show shred p v = [⟨0, listDef p, none⟩] from h]
      by_cases h0 : listDef p = 0
      · simp [h0, firstDef]
      · by_cases h1 : listDef p = 1 <;> simp [h0, h1, firstDef]
    | cons x0 xs =>
      simp only [map_eq_some_iff] at hx
      obtain ⟨ys, hys, rfl⟩ := hx
      obtain ⟨hof, -, htail⟩ := h
      obtain ⟨e, es, heq, -⟩ := rep_head_shred hp v
      rw [show shredFrom p v 0 0 0 = e :: es from heq] at hof htail
      rw [zero_add, zero_add, ← hdef] at hof
      have helems := readElements_eq coerceFn (records.flatMap (shred p)) hof
        (cons_ne_nil _ _) htail hnext
      rw [hys] at helems
      rw [heq]
      cases hof with
      | cons he hes =>
        have hlow := he.low
        by_cases h1 : e.defn = 1
        · have hread : readList coerceFn leaf (cursorOf (e :: es ++ records.flatMap (shred p))) =
              some (.array [], ⟨(cursorOf (es ++ records.flatMap (shred p))).levels,
                (cursorOf (e :: es ++ records.flatMap (shred p))).vals⟩) := by
            simp [readList, h1]
          refine ⟨.array [], _, hread, ?_, ?_⟩
          · have hne : [] ≠ ys := by
              rintro rfl
              simp [mapM_cons, bind_eq_some_iff] at hys
            simp [firstDef, h1, hne]
          · simp [firstDef, h1]
        · have hread : readList coerceFn leaf (cursorOf (e :: es ++ records.flatMap (shred p))) =
              some (.array ys, cursorOf (records.flatMap (shred p))) := by
            unfold readList
            rw [helems]
            simp [h1, show e.defn ≠ 0 by omega]
          refine ⟨.array ys, _, hread, ?_, fun _ => rfl⟩
          simp only [true_iff]
          show 2 ≤ e.defn
          omega

variable {pre : Path}

/-- A field of a record has one entry, whose value is there if the composite and the field
are. -/
theorem field_entry {α : Type} (hp : maxRep (pre ++ p) = 0) (f : α → Value Datum p)
    (v : Value α pre) :
    ∃ e : Entry Datum, shredWith (fun x l r d => shredFrom p (f x) l r d) pre v 0 0 0 = [e] ∧
      OfElement 0 (maxDef (pre ++ p)) ((scalarOf pre v).bind fun x => scalarOf p (f x)) e := by
  rw [maxRep_append, Nat.add_eq_zero_iff] at hp
  have h := shredWith_scalar (fun x l r d => shredFrom p (f x) l r d) hp.1 v 0 0 0
  cases hv : scalarOf pre v with
  | none =>
    rw [hv] at h
    obtain ⟨i, hi, heq⟩ := h
    refine ⟨_, heq, rfl, zero_le _, ?_⟩
    simp only [maxDef_append, Option.bind_none, Option.isSome_none]
    simp
    omega
  | some x =>
    rw [hv] at h
    obtain ⟨e, he, -, hof⟩ := shredFrom_scalar hp.2 (f x) 0 0 (0 + maxDef pre)
    refine ⟨e, by rw [h, he], hof.value, zero_le _, ?_⟩
    rw [maxDef_append, Option.bind_some, ← hof.high, zero_add]

/-- What the field loop reads of a record: nothing, if the composite is missing. -/
def fieldsRead {α : Type} (coerceFn : TypeOid → ℤ → Datum → Option Datum) (pre : Path)
    (fs : List (Option Path)) (leaves : List (Option ImpLeaf)) (f : α → Fields fs)
    (v : Value α pre) :
    Option (List (Option Datum)) :=
  match scalarOf pre v with
  | none => some (leaves.map fun _ => none)
  | some x => fieldValues coerceFn fs leaves (f x)

variable {fs : List (Option Path)}

/-- **The fields of one record of a composite.** -/
theorem readFields_step (coerceFn : TypeOid → ℤ → Datum → Option Datum) {α : Type}
    {leaves : List (Option ImpLeaf)} (hb : List.Forall₂ (FieldBound pre) leaves fs)
    (f : α → Fields fs)
    (v : Value α pre) (records : List (Value α pre)) :
    readFields coerceFn leaves ((fieldEntries pre fs f).map fun shredLeaf =>
        cursorOf ((v :: records).flatMap shredLeaf)) =
      (fieldsRead coerceFn pre fs leaves f v).map fun fields =>
        (fields, (fieldEntries pre fs f).any fun shredLeaf => firstDef (shredLeaf v) == 0,
          (fieldEntries pre fs f).map fun shredLeaf => cursorOf (records.flatMap shredLeaf)) := by
  induction hb with
  | nil =>
    unfold fieldsRead
    cases scalarOf pre v <;> rfl
  | @cons leaf field leaves fs hfield hb ih =>
    match leaf, field, hfield with
    | none, none, _ =>
      have hrest := ih f
      simp only [fieldEntries, readFields, hrest, Option.map_map]
      unfold fieldsRead
      cases scalarOf pre v with
      | none => rfl
      | some x =>
        simp only [fieldValues]
        cases fieldValues coerceFn fs leaves (f x) <;> rfl
    | some leaf, some p, hfield =>
      obtain ⟨e, he, hof⟩ := field_entry hfield.2 (fun x => (f x).1) v
      rw [← hfield.1] at hof
      have hrest := ih fun x => (f x).2
      obtain ⟨shredLeaf, hshred⟩ : ∃ shredLeaf : Value α pre → List (Entry Datum), shredLeaf =
        fun v => shredWith (fun x l r d => shredFrom p (f x).1 l r d) pre v 0 0 0 := ⟨_, rfl⟩
      have hentries : fieldEntries pre (some p :: fs) f =
          shredLeaf :: fieldEntries pre fs fun x => (f x).2 := by
        rw [hshred]
        rfl
      replace he : shredLeaf v = [e] := by rw [hshred]; exact he
      have hflat : (v :: records).flatMap shredLeaf = e :: records.flatMap shredLeaf := by
        rw [flatMap_cons, he]
        rfl
      rw [hentries, map_cons, any_cons, map_cons, readFields, hflat,
        readScalar_eq coerceFn hof, hrest, he]
      unfold fieldsRead
      cases hv : scalarOf pre v with
      | none => simp [returnedValue, firstDef]
      | some x =>
        simp only [fieldValues, Option.bind_some, bind_eq_bind]
        cases returnedValue coerceFn leaf (scalarOf p (f x).1) with
        | none => rfl
        | some y =>
          cases fieldValues coerceFn fs leaves (f x).2 with
          | none => rfl
          | some ys => simp [firstDef]

/-- **One record of a composite.** -/
theorem readStruct_step {leaves : List (Option ImpLeaf)}
    (hb : List.Forall₂ (FieldBound pre) leaves fs) (v : Value (Fields fs) pre)
    (records : List (Value (Fields fs) pre)) {x : SqlValue}
    (hx : valueOf coerceFn (.struct leaves) (.struct pre fs) v = some x) :
    ∃ y, readTarget coerceFn (.struct leaves) ((fieldEntries pre fs id).map fun shredLeaf =>
        cursorOf ((v :: records).flatMap shredLeaf)) =
      some (y, (fieldEntries pre fs id).map fun shredLeaf => cursorOf (records.flatMap shredLeaf)) ∧
      (y = x ↔ Readable (.struct pre fs) v) := by
  have hread := readFields_step coerceFn hb id v records
  have hany : ((fieldEntries pre fs id).any fun shredLeaf => firstDef (shredLeaf v) == 0) = true ↔
      ∃ shredLeaf ∈ fieldEntries pre fs id, firstDef (shredLeaf v) = 0 := by
    simp [any_eq_true]
  show ∃ y, _ ∧ (y = x ↔ (scalarOf pre v = none ↔ ∃ shredLeaf ∈ fieldEntries pre fs id,
    firstDef (shredLeaf v) = 0))
  rw [readTarget, hread, ← hany]
  unfold fieldsRead
  simp only [valueOf] at hx
  cases hv : scalarOf pre v with
  | none =>
    rw [hv] at hx
    cases hx
    refine ⟨_, rfl, ?_⟩
    cases (fieldEntries pre fs id).any fun shredLeaf => firstDef (shredLeaf v) == 0 <;> simp
  | some r =>
    rw [hv] at hx
    simp only [map_eq_some_iff] at hx
    obtain ⟨ys, hys, rfl⟩ := hx
    simp only [id, hys, Option.map_some]
    refine ⟨_, rfl, ?_⟩
    cases (fieldEntries pre fs id).any fun shredLeaf => firstDef (shredLeaf v) == 0 <;> simp

variable {c : Column}

/-- **One record of a column.** -/
theorem readTarget_step {t : ImpTarget} (hb : Bound t c) (v : ColValue c)
    (records : List (ColValue c)) {x : SqlValue} (hx : valueOf coerceFn t c v = some x) :
    ∃ y cs, readTarget coerceFn t (c.leaves (v :: records)) = some (y, cs) ∧
      (y = x ↔ Readable c v) ∧
      (Readable c v → cs = c.leaves records) := by
  match t, c, hb with
  | .scalar leaf, .scalar p, hb =>
    obtain ⟨e, he, -, hof⟩ := shredFrom_scalar hb.2 v 0 0 0
    rw [zero_add, ← hb.1] at hof
    simp only [valueOf, map_eq_some_iff] at hx
    obtain ⟨y, hy, rfl⟩ := hx
    have hread := readScalar_eq coerceFn hof ((records : List (Value Datum p)).flatMap (shred p))
    rw [hy] at hread
    refine ⟨_, _, ?_, iff_of_true rfl trivial, fun _ => rfl⟩
    show (readScalar coerceFn leaf (cursorOf (shredFrom p v 0 0 0 ++
      (records : List (Value Datum p)).flatMap (shred p)))).map _ = _
    rw [he]
    exact congrArg (Option.map _) hread
  | .list leaf, .list p, hb =>
    obtain ⟨y, c, hread, heq, hrest⟩ := readList_step hb.1 hb.2 v records hx
    refine ⟨y, [c], congrArg (Option.map _) hread, heq, ?_⟩
    intro hr
    rw [hrest hr]
    rfl
  | .struct leaves, .struct pre fs, hb =>
    obtain ⟨y, hread, heq⟩ := readStruct_step hb v records hx
    exact ⟨y, _, hread, heq, fun _ => rfl⟩

/-! ### Rows -/

/-- The records of a column in a row group. -/
abbrev Chunk := (c : Column) × List (ColValue c)

/-- What is ahead of the cursors of a column: nothing, if it is not needed. -/
def aheadOf (t : ImpTarget × Bool) (chunk : Chunk) : List LeafCursor :=
  (chunk.1.leaves chunk.2).map fun c => if t.2 then c else ⟨[], []⟩

/-- What is ahead of all cursors of a row group. -/
def ahead (tops : List (ImpTarget × Bool)) (chunks : List Chunk) : List LeafCursor :=
  (List.zipWith aheadOf tops chunks).flatten

/-- The columns that are needed can read their first record. -/
def FirstReadable (tops : List (ImpTarget × Bool)) (chunks : List Chunk) : Prop :=
  ∀ tc ∈ tops.zip chunks, tc.1.2 = true → ∀ v ∈ tc.2.2.head?, Readable tc.2.1 v

/-- The columns that are needed can read all their records. -/
def AllReadable (tops : List (ImpTarget × Bool)) (chunks : List Chunk) : Prop :=
  ∀ tc ∈ tops.zip chunks, tc.1.2 = true → ∀ v ∈ tc.2.2, Readable tc.2.1 v

variable {tops : List (ImpTarget × Bool)} {chunks : List Chunk}

theorem length_fieldEntries {α : Type}
    {leaves : List (Option ImpLeaf)} (hb : List.Forall₂ (FieldBound pre) leaves fs)
    (f : α → Fields fs) :
    (fieldEntries pre fs f).length = leaves.countP Option.isSome := by
  induction hb with
  | nil => rfl
  | @cons leaf field leaves fs hfield _ ih =>
    match leaf, field, hfield with
    | none, none, _ => simpa [fieldEntries] using ih f
    | some leaf, some p, _ => simpa [fieldEntries] using ih fun x => (f x).2

theorem length_entries_of_bound {t : ImpTarget} (hb : Bound t c) :
    c.entries.length = t.nleaves := by
  match t, c, hb with
  | .scalar leaf, .scalar p, _ => rfl
  | .list leaf, .list p, _ => rfl
  | .struct leaves, .struct pre fs, hb => exact length_fieldEntries hb id

variable {t : ImpTarget × Bool}

theorem length_aheadOf {chunk : Chunk} (hb : Bound t.1 chunk.1) :
    (aheadOf t chunk).length = t.1.nleaves := by
  rw [aheadOf, length_map, Column.leaves, length_map, length_entries_of_bound hb]

/-- The decoded leaves are what is ahead of the cursors at the beginning. -/
theorem decodeNeeded_eq
    (hb : List.Forall₂ (fun t (chunk : Chunk) => Bound t.1 chunk.1) tops chunks) :
    decodeNeeded tops (chunks.flatMap fun chunk => chunk.1.leaves chunk.2) = ahead tops chunks := by
  induction hb with
  | nil => rfl
  | @cons t chunk tops chunks hbound _ ih =>
    have hlen : (chunk.1.leaves chunk.2).length = t.1.nleaves := by
      rw [Column.leaves, length_map, length_entries_of_bound hbound]
    rw [flatMap_cons, decodeNeeded, take_left' hlen, drop_left' hlen, ih]
    rfl

/-- The columns that are not needed have nothing ahead, whatever their records. -/
theorem aheadOf_of_not_needed {t : ImpTarget} (records records' : List (ColValue c)) :
    aheadOf (t, false) ⟨c, records⟩ = aheadOf (t, false) ⟨c, records'⟩ := by
  simp [aheadOf, Column.leaves]

theorem firstReadable_cons {chunk : Chunk} : FirstReadable (t :: tops) (chunk :: chunks) ↔
      (t.2 = true → ∀ v ∈ chunk.2.head?, Readable chunk.1 v) ∧ FirstReadable tops chunks := by
  simp [FirstReadable]

/-- **One row.** -/
theorem readRow_step (hb : List.Forall₂ (fun t (chunk : Chunk) => Bound t.1 chunk.1) tops chunks)
    {row : List SqlValue}
    (hrow : (tops.zip chunks).mapM (fun tc => firstValue coerceFn tc.1 tc.2) = some row) :
    ∃ row' cs, readRow coerceFn tops (ahead tops chunks) = some (row', cs) ∧
      (row' = row ↔ FirstReadable tops chunks) ∧
      (FirstReadable tops chunks → cs = ahead tops (restOf chunks)) := by
  induction hb generalizing row with
  | nil =>
    obtain rfl : [] = row := by simpa using hrow
    exact ⟨[], [], rfl, iff_of_true rfl (by simp [FirstReadable]), fun _ => rfl⟩
  | @cons t chunk tops chunks hbound hb ih =>
    simp only [zip_cons_cons, mapM_cons, bind_eq_bind, bind_eq_some_iff] at hrow
    obtain ⟨x, hx, xs, hxs, hcons⟩ := hrow
    obtain rfl : x :: xs = row := by simpa using hcons
    obtain ⟨row', cs, hread, heq, hcs⟩ := ih hxs
    obtain ⟨t, need⟩ := t
    obtain ⟨c, records⟩ := chunk
    have hlen : (aheadOf (t, need) ⟨c, records⟩).length = t.nleaves := length_aheadOf hbound
    -- what the column itself does with its own leaves
    have hown : ∃ y own, readNeeded coerceFn (t, need) (aheadOf (t, need) ⟨c, records⟩) =
          some (y, own) ∧
        (y = x ↔ (need = true → ∀ v ∈ records.head?, Readable c v)) ∧
        ((need = true → ∀ v ∈ records.head?, Readable c v) →
          own = aheadOf (t, need) ⟨c, records.tail⟩) := by
      cases records with
      | nil => cases hx
      | cons v records =>
        cases need with
        | false =>
          obtain rfl : SqlValue.null = x := by simpa [firstValue] using hx
          exact ⟨_, _, rfl, by simp, fun _ => aheadOf_of_not_needed _ _⟩
        | true =>
          obtain ⟨y, own, hstep, hiff, hrest⟩ := readTarget_step hbound v records
            (by simpa [firstValue] using hx)
          refine ⟨y, own, by simpa [readNeeded, aheadOf] using hstep, by simpa using hiff, ?_⟩
          intro hr
          simpa [aheadOf] using hrest (by simpa using hr)
    obtain ⟨y, own, hown, hy, hownrest⟩ := hown
    refine ⟨y :: row', own ++ cs, ?_, ?_, ?_⟩
    · rw [ahead, zipWith_cons_cons, flatten_cons, readRow, take_left' hlen, drop_left' hlen]
      rw [show (List.zipWith aheadOf tops chunks).flatten = ahead tops chunks from rfl, hown, hread]
      rfl
    · rw [firstReadable_cons, List.cons.injEq, hy, heq]
    · intro hr
      obtain ⟨hfirst, hrest⟩ := firstReadable_cons.mp hr
      rw [hownrest hfirst, hcs hrest]
      rfl

theorem allReadable_iff (tops : List (ImpTarget × Bool)) (chunks : List Chunk) :
    AllReadable tops chunks ↔ FirstReadable tops chunks ∧ AllReadable tops (restOf chunks) := by
  induction tops generalizing chunks with
  | nil => simp [AllReadable, FirstReadable]
  | cons t tops ih =>
    cases chunks with
    | nil => simp [AllReadable, FirstReadable, restOf]
    | cons chunk chunks =>
      have hcons : ∀ rest : List Chunk, ∀ ch : Chunk, AllReadable (t :: tops) (ch :: rest) ↔
          (t.2 = true → ∀ v ∈ ch.2, Readable ch.1 v) ∧ AllReadable tops rest := by
        simp [AllReadable]
      rw [show restOf (chunk :: chunks) = ⟨chunk.1, chunk.2.tail⟩ :: restOf chunks from rfl,
        hcons, hcons,
        firstReadable_cons, ih chunks]
      obtain ⟨c, records⟩ := chunk
      have hsplit : (∀ v ∈ records, Readable c v) ↔
          (∀ v ∈ records.head?, Readable c v) ∧ ∀ v ∈ records.tail, Readable c v := by
        cases records <;> simp
      simp only [hsplit]
      tauto

theorem bound_restOf (hb : List.Forall₂ (fun t (chunk : Chunk) => Bound t.1 chunk.1) tops chunks) :
    List.Forall₂ (fun t (chunk : Chunk) => Bound t.1 chunk.1) tops (restOf chunks) := by
  induction hb with
  | nil => exact List.Forall₂.nil
  | cons h _ ih => exact List.Forall₂.cons h ih

/-- Without records nothing is ahead of the cursors. -/
theorem eq_of_mem_ahead (hempty : ∀ chunk ∈ chunks, chunk.2 = []) {c : LeafCursor}
    (hc : c ∈ ahead tops chunks) : c = ⟨[], []⟩ := by
  induction tops generalizing chunks with
  | nil => simp [ahead] at hc
  | cons t tops ih =>
    cases chunks with
    | nil => simp [ahead] at hc
    | cons chunk chunks =>
      rcases mem_append.mp (show c ∈ aheadOf t chunk ++ ahead tops chunks from hc) with hc | hc
      · have hnil := hempty chunk mem_cons_self
        simp only [aheadOf, Column.leaves, hnil, flatMap_nil, map_map, mem_map] at hc
        obtain ⟨_, -, rfl⟩ := hc
        cases t.2 <;> rfl
      · exact ih (fun ch hch => hempty ch (mem_cons_of_mem _ hch)) hc

variable {rows : List (List SqlValue)}

/-- **One row group**: its rows are read exactly if all its records are readable, and then
nothing is left of its leaves. -/
theorem readGroup_spec (hb : List.Forall₂ (fun t (chunk : Chunk) => Bound t.1 chunk.1) tops chunks)
    {n : ℕ} (hlen : ∀ chunk ∈ chunks, chunk.2.length = n)
    (hrows : expectedGroup coerceFn tops n chunks = some rows) :
    (AllReadable tops chunks → ∃ cs, readGroup coerceFn tops n (ahead tops chunks) =
      some (rows, cs) ∧
      ∀ c ∈ cs, c = ⟨[], []⟩) ∧
    (∀ cs, readGroup coerceFn tops n (ahead tops chunks) = some (rows, cs) →
      AllReadable tops chunks) := by
  induction n generalizing chunks rows with
  | zero =>
    cases hrows
    have hempty : ∀ chunk ∈ chunks, chunk.2 = [] :=
      fun chunk h => length_eq_zero_iff.mp (hlen chunk h)
    refine ⟨fun _ => ⟨_, rfl, fun c hc => eq_of_mem_ahead hempty hc⟩, ?_⟩
    intro _ _ tc htc _ v hv
    rw [hempty _ (of_mem_zip htc).2] at hv
    cases hv
  | succ n ih =>
    simp only [expectedGroup, bind_eq_bind, bind_eq_some_iff] at hrows
    obtain ⟨row, hrow, rest, hrest, hcons⟩ := hrows
    obtain rfl : row :: rest = rows := by simpa using hcons
    obtain ⟨row', cs, hread, heq, hcs⟩ := readRow_step hb hrow
    have hlen' : ∀ chunk ∈ restOf chunks, chunk.2.length = n := by
      intro chunk hchunk
      obtain ⟨chunk, h, rfl⟩ := mem_map.mp hchunk
      simp [hlen chunk h]
    obtain ⟨hok, hback⟩ := ih (bound_restOf hb) hlen' hrest
    have hstep : ∀ out, readGroup coerceFn tops (n + 1) (ahead tops chunks) = some out ↔
        ∃ r, readGroup coerceFn tops n cs = some r ∧ (row' :: r.1, r.2) = out := by
      intro out
      rw [readGroup, hread]
      simp [bind_eq_some_iff]
    rw [allReadable_iff]
    constructor
    · intro ⟨hfirst, hall⟩
      obtain ⟨cs', hgroup, hended⟩ := hok hall
      refine ⟨cs', (hstep _).mpr ⟨_, by rw [hcs hfirst]; exact hgroup, ?_⟩, hended⟩
      rw [heq.mpr hfirst]
    · intro cs' hgroup
      obtain ⟨r, hr, hout⟩ := (hstep _).mp hgroup
      simp only [Prod.mk.injEq, List.cons.injEq] at hout
      obtain ⟨⟨hrow', hrest'⟩, -⟩ := hout
      have hfirst := heq.mp hrow'
      rw [hcs hfirst] at hr
      refine ⟨hfirst, hback r.2 ?_⟩
      rw [hr, ← hrest']

/-- The number of rows is that of the row group, whatever the rows are. -/
theorem length_readGroup {n : ℕ} {cs : List LeafCursor}
    {out : List (List SqlValue) × List LeafCursor}
    (h : readGroup coerceFn tops n cs = some out) : out.1.length = n := by
  induction n generalizing cs out with
  | zero =>
    cases h
    rfl
  | succ n ih =>
    simp only [readGroup, bind_eq_bind, bind_eq_some_iff] at h
    obtain ⟨r, -, r', hr', hout⟩ := h
    obtain rfl : (r.1 :: r'.1, r'.2) = out := by simpa using hout
    rw [length_cons, ih hr']

theorem length_expectedGroup {n : ℕ}
    (h : expectedGroup coerceFn tops n chunks = some rows) : rows.length = n := by
  induction n generalizing chunks rows with
  | zero =>
    cases h
    rfl
  | succ n ih =>
    simp only [expectedGroup, bind_eq_bind, bind_eq_some_iff] at h
    obtain ⟨row, -, rest, hrest, hcons⟩ := h
    obtain rfl : row :: rest = rows := by simpa using hcons
    rw [length_cons, ih hrest]

/-! ### The binding -/

/-- A column and a shape of the same kind, with the same fields. -/
def SameKind : ImpTarget → Column → Prop
  | .scalar _, .scalar _ => True
  | .list _, .list _ => True
  | .struct leaves, .struct _ fields => leaves.map Option.isSome = fields.map Option.isSome
  | _, _ => False

/-- A leaf that is read as a scalar keeps its levels, and does not repeat. -/
theorem bindScalarLeaf_spec {info : PqLeafInfo} {cf : TypeOid → Bool} {typid : TypeOid} {typmod : ℤ}
    {leaf : ImpLeaf} (h : bindScalarLeaf cf typid typmod info = some leaf) :
    leaf.maxDef = info.maxDef ∧ info.maxRep = 0 := by
  obtain ⟨plan, hplan, rfl⟩ := map_eq_some_iff.mp h
  refine ⟨rfl, ?_⟩
  unfold bindScalar at hplan
  split at hplan
  · cases hplan
  · split_ifs at hplan with hrep
    exact not_not.mp hrep

theorem bindElement_spec {info : PqLeafInfo} {cf : TypeOid → Bool} {typid : TypeOid} {typmod : ℤ}
    {leaf : ImpLeaf} (h : bindElement cf typid typmod info = some leaf) :
    leaf.maxDef = info.maxDef ∧ info.maxRep = 1 := by
  unfold bindElement at h
  split at h
  · cases h
  · split at h
    · cases h
    · split at h
      · cases h
      · split_ifs at h
        cases h
        exact ⟨rfl, by omega⟩

variable {infos : List (PqSchemaCol × Path)}

theorem bindFields_spec {cf : TypeOid → Bool} {atts : List (Option (TypeOid × ℤ))}
    {leaves rest : List PqLeafInfo} {bound : List (Option ImpLeaf)}
    {paths : List Path}
    (h : bindFields cf atts leaves = some (bound, rest))
    (hkind : bound.map Option.isSome = fs.map Option.isSome) (hleaves : leaves = infos.map leafAt)
    (hpaths : infos.map Prod.snd = (fs.filterMap id).map (pre ++ ·) ++ paths) :
    List.Forall₂ (FieldBound pre) bound fs ∧ ∃ infos' : List (PqSchemaCol × Path),
      rest = infos'.map leafAt ∧ infos'.map Prod.snd = paths := by
  induction atts generalizing leaves rest bound fs infos with
  | nil =>
    cases h
    obtain rfl : fs = [] := by simpa using hkind.symm
    exact ⟨List.Forall₂.nil, infos, hleaves, by simpa using hpaths⟩
  | cons att atts ih =>
    cases att with
    | none =>
      simp only [bindFields, bind_eq_bind, bind_eq_some_iff] at h
      obtain ⟨r, hr, hout⟩ := h
      cases hout
      cases fs with
      | nil => simp at hkind
      | cons f fs =>
        obtain ⟨hf, hkinds⟩ := List.cons.inj hkind
        obtain rfl : f = none := by simpa using hf.symm
        obtain ⟨hb, hinfos⟩ := ih hr hkinds hleaves (by simpa using hpaths)
        exact ⟨List.Forall₂.cons trivial hb, hinfos⟩
    | some att =>
      cases leaves with
      | nil => cases h
      | cons leaf leaves =>
        simp only [bindFields, bind_eq_bind, bind_eq_some_iff] at h
        obtain ⟨field, hfield, r, hr, hout⟩ := h
        cases hout
        cases fs with
        | nil => simp at hkind
        | cons f fs =>
          obtain ⟨hf, hkinds⟩ := List.cons.inj hkind
          obtain ⟨p, rfl⟩ := Option.isSome_iff_exists.mp hf.symm
          cases infos with
          | nil => cases hleaves
          | cons info infos =>
            obtain ⟨hleaf, hleaves⟩ := List.cons.inj hleaves
            obtain ⟨hpath, hpaths⟩ := List.cons.inj (show info.2 :: infos.map Prod.snd =
              (pre ++ p) :: ((fs.filterMap id).map (pre ++ ·) ++ paths) by simpa using hpaths)
            obtain ⟨hb, hinfos⟩ := ih hr hkinds hleaves hpaths
            refine ⟨List.Forall₂.cons ?_ hb, hinfos⟩
            obtain ⟨hdef, hrep⟩ := bindScalarLeaf_spec hfield
            rw [hleaf, leafAt, hpath] at hdef hrep
            exact ⟨hdef, hrep⟩

variable {targets : List ImpTarget}

/-- **Each column is bound to leaves that have its paths.** -/
theorem buildImpTargets_spec {cf : TypeOid → Bool} {atts : List ImpAtt} {columns : List Column}
    (h : buildImpTargets cf atts (infos.map leafAt) = some targets)
    (hkind : List.Forall₂ SameKind targets columns)
    (hpaths : infos.map Prod.snd = columns.flatMap Column.paths) :
    List.Forall₂ Bound targets columns := by
  induction atts generalizing infos targets columns with
  | nil =>
    cases infos with
    | nil =>
      cases h
      cases hkind
      exact List.Forall₂.nil
    | cons info infos => cases h
  | cons att atts ih =>
    -- each attribute takes the leaves of its column from the front
    cases att with
    | skipped => exact ih h hkind hpaths
    | composite fields =>
      simp only [buildImpTargets, bind_eq_bind, bind_eq_some_iff] at h
      obtain ⟨r, hr, ts, hts, hout⟩ := h
      cases hout
      cases hkind with
      | @cons _ c _ columns hc hkind =>
        cases c with
        | scalar | list => cases hc
        | struct pre fs =>
          obtain ⟨hb, infos', hrest, hinfos'⟩ := bindFields_spec hr hc rfl
            (show infos.map Prod.snd = _ ++ columns.flatMap Column.paths from hpaths)
          rw [hrest] at hts
          exact List.Forall₂.cons hb (ih hts hkind hinfos')
    | array elemtype typmod =>
      cases infos with
      | nil => cases h
      | cons info infos =>
        simp only [map_cons, buildImpTargets, bind_eq_bind, bind_eq_some_iff] at h
        obtain ⟨leaf, hleaf, ts, hts, hout⟩ := h
        cases hout
        cases hkind with
        | @cons _ c _ columns hc hkind =>
          cases c with
          | scalar | struct => cases hc
          | list p =>
            obtain ⟨hpath, hpaths⟩ := List.cons.inj hpaths
            have hspec := bindElement_spec hleaf
            rw [leafAt, hpath] at hspec
            exact List.Forall₂.cons hspec (ih hts hkind hpaths)
    | scalar typid typmod =>
      cases infos with
      | nil => cases h
      | cons info infos =>
        simp only [map_cons, buildImpTargets, bind_eq_bind, bind_eq_some_iff] at h
        obtain ⟨leaf, hleaf, ts, hts, hout⟩ := h
        cases hout
        cases hkind with
        | @cons _ c _ columns hc hkind =>
          cases c with
          | list | struct => cases hc
          | scalar p =>
            obtain ⟨hpath, hpaths⟩ := List.cons.inj hpaths
            have hspec := bindScalarLeaf_spec hleaf
            rw [leafAt, hpath] at hspec
            exact List.Forall₂.cons hspec (ih hts hkind hpaths)

/-! ### All row groups -/

theorem bound_chunks {needed : List Bool} (hlen : needed.length = targets.length)
    (hb : List.Forall₂ Bound targets (chunks.map Sigma.fst)) :
    List.Forall₂ (fun t (chunk : Chunk) => Bound t.1 chunk.1) (targets.zip needed) chunks := by
  induction targets generalizing chunks needed with
  | nil =>
    cases chunks with
    | nil => exact List.Forall₂.nil
    | cons chunk chunks => cases hb
  | cons t targets ih =>
    cases chunks with
    | nil => cases hb
    | cons chunk chunks =>
      cases needed with
      | nil => simp at hlen
      | cons need needed =>
        cases hb with
        | cons h hb => exact List.Forall₂.cons h (ih (Nat.succ.inj hlen) hb)

/-- The rows of all row groups are read, and nothing is left of the leaves of any. -/
def ReadsAll (coerceFn : TypeOid → ℤ → Datum → Option Datum) (tops : List (ImpTarget × Bool))
    (groups : List RecordGroup) (rows : List (List SqlValue)) : Prop :=
  ∃ css, pqReadRows coerceFn tops (groups.map RecordGroup.shredded) = some (rows, css) ∧
    ∀ cs ∈ css, ∀ c ∈ cs, c = ⟨[], []⟩

theorem readsAll_iff {groups : List RecordGroup}
    (hb : ∀ g ∈ groups, List.Forall₂ (fun t (chunk : Chunk) => Bound t.1 chunk.1) tops g.chunks)
    (hrows : expectedRows coerceFn tops groups = some rows) :
    ReadsAll coerceFn tops groups rows ↔ ∀ g ∈ groups, g.skip = false →
      AllReadable tops g.chunks := by
  induction groups generalizing rows with
  | nil =>
    cases hrows
    exact iff_of_true ⟨[], rfl, by simp⟩ (by simp)
  | cons g groups ih =>
    have hb' := fun g' hg' => hb g' (mem_cons_of_mem g hg')
    rw [forall_mem_cons]
    unfold ReadsAll
    rw [map_cons, pqReadRows, show g.shredded.skip = g.skip from rfl]
    rw [expectedRows] at hrows
    cases hskip : g.skip with
    | true =>
      simp only [hskip, if_true] at hrows
      simp only [if_true, reduceCtorEq, false_implies, true_and]
      exact ih hb' hrows
    | false =>
      simp only [hskip, Bool.false_eq_true, if_false, bind_eq_bind, bind_eq_some_iff,
        Option.pure_def, Option.some.injEq] at hrows ⊢
      obtain ⟨first, hfirst, more, hmore, rfl⟩ := hrows
      have hbg := hb g mem_cons_self
      obtain ⟨hok, hback⟩ := readGroup_spec hbg g.full hfirst
      have hdecode : decodeNeeded tops g.shredded.leaves = ahead tops g.chunks :=
        decodeNeeded_eq hbg
      rw [hdecode, show g.shredded.numRows = g.numRows from rfl]
      constructor
      · intro ⟨css, ⟨r, hr, s, hs, hout⟩, hended⟩
        obtain ⟨happend, rfl⟩ := Prod.mk.inj hout
        obtain ⟨hr1, hs1⟩ := append_inj happend
          (by rw [length_readGroup hr, length_expectedGroup hfirst])
        refine ⟨fun _ => hback r.2 (by rw [hr, ← hr1]), ?_⟩
        apply (ih hb' hmore).mp
        exact ⟨s.2, by rw [hs, ← hs1], fun cs hcs => hended cs (mem_cons_of_mem _ hcs)⟩
      · intro ⟨hall, hrest⟩
        obtain ⟨cs, hread, hend⟩ := hok (hall trivial)
        obtain ⟨css, hreads, hends⟩ := (ih hb' hmore).mpr hrest
        refine ⟨cs :: css, ⟨_, hread, _, hreads, rfl⟩, ?_⟩
        refine forall_mem_cons.mpr ⟨?_, hends⟩
        exact hend

/-- **Exactly when the rows of the records are read.**  The columns are bound to the leaves
of the file, and each row group holds records of their shapes.  The reader returns the rows
that the records say, and consumes every entry and every value, exactly if the values pass
the coercions and every record that is read begins at the level that the reader tests for. -/
theorem pqReadRows_eq_iff (coercionFunction : TypeOid → Bool)
    (coerceFn : TypeOid → ℤ → Datum → Option Datum) (elems : List SchemaElem)
    (infos : List (PqSchemaCol × Path)) (hfile : filePaths elems = some infos)
    (leaves : List PqLeafInfo)
    (hleaves : fileLeaves elems = some leaves) (atts : List ImpAtt) (targets : List ImpTarget)
    (hbuild : buildImpTargets coercionFunction atts leaves = some targets) (needed : List Bool)
    (hneeded : needed.length = targets.length) (columns : List Column)
    (hkind : List.Forall₂ SameKind targets columns)
    (hpaths : infos.map Prod.snd = columns.flatMap Column.paths) (groups : List RecordGroup)
    (hgroups : ∀ g ∈ groups, g.chunks.map Sigma.fst = columns) :
    (∃ rows, expectedRows coerceFn (targets.zip needed) groups = some rows ∧
      ReadsAll coerceFn (targets.zip needed) groups rows) ↔
    (expectedRows coerceFn (targets.zip needed) groups).isSome ∧
      ∀ g ∈ groups, g.skip = false → AllReadable (targets.zip needed) g.chunks := by
  rw [fileLeaves_eq, hfile] at hleaves
  obtain rfl : infos.map leafAt = leaves := by simpa using hleaves
  have hbound := buildImpTargets_spec hbuild hkind hpaths
  have hb : ∀ g ∈ groups, List.Forall₂ (fun t (chunk : Chunk) => Bound t.1 chunk.1)
      (targets.zip needed) g.chunks := by
    intro g hg
    exact bound_chunks hneeded (by rw [hgroups g hg]; exact hbound)
  constructor
  · intro ⟨rows, hrows, hreads⟩
    exact ⟨by rw [hrows]; rfl, (readsAll_iff hb hrows).mp hreads⟩
  · intro ⟨hsome, hall⟩
    obtain ⟨rows, hrows⟩ := Option.isSome_iff_exists.mp hsome
    exact ⟨rows, hrows, (readsAll_iff hb hrows).mpr hall⟩

/-! ### Schemas that can be read -/

/-- **With one optional element above the list every record can be read.** -/
theorem readable_list (hp : maxRep p = 1) (hone : listDef p = 1) (v : Value Datum p) :
    Readable (.list p) v := by
  have h := shred_list hp v 0 0
  rw [hone] at h
  simp only [Readable]
  unfold shred
  cases hv : listOf p v with
  | none =>
    rw [hv] at h
    obtain ⟨i, hi, heq⟩ := h
    rw [heq]
    show 0 + i = 0
    omega
  | some xs =>
    rw [hv] at h
    cases xs with
    | nil =>
      rw [h]
      rfl
    | cons x xs =>
      obtain ⟨e, es, heq, -⟩ := rep_head_shred hp v
      rw [show shredFrom p v 0 0 0 = e :: es from heq] at h ⊢
      cases h.1 with
      | cons he _ => exact he.low

/-- With one optional element above the composite, a leaf begins at level 0 exactly if the
composite is missing. -/
theorem firstDef_field {α : Type} (hpre : maxRep pre = 0) (hone : maxDef pre = 1)
    (hfs : ∀ p, some p ∈ fs → maxRep p = 0) (f : α → Fields fs)
    (v : Value α pre) : ∀ shredLeaf ∈ fieldEntries pre fs f,
      (firstDef (shredLeaf v) = 0 ↔ scalarOf pre v = none) := by
  induction fs with
  | nil => simp [fieldEntries]
  | cons field fs ih =>
    have hrest := fun p hp => hfs p (mem_cons_of_mem _ hp)
    cases field with
    | none => exact ih hrest f
    | some p =>
      refine forall_mem_cons.mpr ⟨?_, ih hrest (fun x => (f x).2)⟩
      have h := shredWith_scalar (fun x l r d => shredFrom p (f x).1 l r d) hpre v 0 0 0
      cases hv : scalarOf pre v with
      | none =>
        rw [hv] at h
        obtain ⟨i, hi, heq⟩ := h
        simp only [heq]
        refine iff_of_true ?_ trivial
        show 0 + i = 0
        omega
      | some x =>
        rw [hv] at h
        obtain ⟨e, he, -, hof⟩ := shredFrom_scalar (hfs p mem_cons_self) (f x).1 0 0
          (0 + maxDef pre)
        have hlow := hof.low
        simp only [h, he]
        refine iff_of_false ?_ nofun
        show e.defn ≠ 0
        omega

theorem fieldEntries_ne_nil {α : Type}
    (hfield : ∃ p, some p ∈ fs) (f : α → Fields fs) : fieldEntries pre fs f ≠ [] := by
  induction fs with
  | nil => simp at hfield
  | cons field fs ih =>
    cases field with
    | none => exact ih (by simpa using hfield) f
    | some p => exact cons_ne_nil _ _

/-- **With one optional element above a composite that has a field every record can be
read.** -/
theorem readable_struct (hpre : maxRep pre = 0) (hone : maxDef pre = 1)
    (hfs : ∀ p, some p ∈ fs → maxRep p = 0)
    (hfield : ∃ p, some p ∈ fs) (v : Value (Fields fs) pre) :
    Readable (.struct pre fs) v := by
  have h := firstDef_field hpre hone hfs id v
  show scalarOf pre v = none ↔ ∃ shredLeaf ∈ fieldEntries pre fs id, firstDef (shredLeaf v) = 0
  constructor
  · intro hnone
    obtain ⟨shredLeaf, hmem⟩ := exists_mem_of_ne_nil _ (fieldEntries_ne_nil hfield id)
    exact ⟨shredLeaf, hmem, (h shredLeaf hmem).mpr hnone⟩
  · intro ⟨shredLeaf, hmem, hzero⟩
    exact (h shredLeaf hmem).mp hzero

/-! Two files of `int4` leaves: one with a required list of required elements, and one with an
optional list and an optional composite. -/

def int4Elem (repetition : Repetition) (numChildren : ℕ) : SchemaElem :=
  ⟨⟨.int32, -1, .none, false, false, false, 0, 0, 0⟩, repetition, numChildren⟩

def requiredList : List SchemaElem :=
  [int4Elem .required 1, int4Elem .required 1, int4Elem .repeated 1, int4Elem .required 0]

/-- One record, the list `[1, 2]`. -/
def requiredGroup : RecordGroup where
  skip := false
  numRows := 1
  chunks := [⟨.list [.required, .repeated, .required], [([.int 1, .int 2] : List Datum)]⟩]
  full := forall_mem_cons.mpr ⟨rfl, nofun⟩

/-- The required list is read as an empty one. -/
theorem pqReadRows_requiredList : ∃ leaves targets, fileLeaves requiredList = some leaves ∧
    buildImpTargets (fun _ => false) [.array .int4 (-1)] leaves = some targets ∧
    expectedRows (fun _ _ d => some d) (targets.zip [true]) [requiredGroup] =
      some [[.array [some (.int 1), some (.int 2)]]] ∧
    (pqReadRows (fun _ _ d => some d) (targets.zip [true]) [requiredGroup.shredded]).map Prod.fst =
      some [[.array []]] :=
  ⟨_, _, rfl, rfl, by decide, by decide⟩

def optionalBoth : List SchemaElem :=
  [int4Elem .required 2, int4Elem .optional 1, int4Elem .repeated 1, int4Elem .optional 0,
    int4Elem .optional 2, int4Elem .required 0, int4Elem .optional 0]

def bothColumns : List Column :=
  [.list [.optional, .repeated, .optional], .struct [.optional]
    [some [.required], some [.optional]]]

/-- Four records: lists that are missing, empty, and with a null element, and composites that
are missing and with a null field. -/
def bothGroup : RecordGroup where
  skip := false
  numRows := 4
  chunks := [⟨.list [.optional, .repeated, .optional],
      ([none, some [], some [some (.int 1), none], some [none]] : List
        (Option (List (Option Datum))))⟩,
    ⟨.struct [.optional] [some [.required], some [.optional]],
      ([some (.int 5, none, ()), none, some (.int 6, some (.int 7), ()), none] :
        List (Option (Datum × Option Datum × Unit)))⟩]
  full := forall_mem_cons.mpr ⟨rfl, forall_mem_cons.mpr ⟨rfl, nofun⟩⟩

theorem readable_bothColumns (hc : c ∈ bothColumns) (v : ColValue c) : Readable c v := by
  simp only [bothColumns, mem_cons, not_mem_nil, or_false] at hc
  rcases hc with rfl | rfl
  · exact readable_list rfl rfl v
  · refine readable_struct rfl rfl ?_ ⟨_, mem_cons_self⟩ v
    intro p hp
    simp only [mem_cons, Option.some.injEq, not_mem_nil, or_false] at hp
    rcases hp with rfl | rfl <;> rfl

/-- All four records are read. -/
theorem pqReadRows_eq_iff_optionalBoth : ∃ leaves targets, fileLeaves optionalBoth = some leaves ∧
    buildImpTargets (fun _ => false)
      [.array .int4 (-1), .composite [some (.int4, -1), some (.int4, -1)]]
      leaves = some targets ∧
    ∃ rows, expectedRows (fun _ _ d => some d) (targets.zip [true, true]) [bothGroup] = some rows ∧
      ReadsAll (fun _ _ d => some d) (targets.zip [true, true]) [bothGroup] rows := by
  refine ⟨_, _, rfl, rfl, ?_⟩
  refine (pqReadRows_eq_iff (fun _ => false) (fun _ _ d => some d) optionalBoth _ rfl _ rfl
    [.array .int4 (-1), .composite [some (.int4, -1), some (.int4, -1)]] _ rfl [true, true] rfl
    bothColumns ?_ rfl [bothGroup] ?_).mpr ⟨by decide, ?_⟩
  · exact List.Forall₂.cons trivial (List.Forall₂.cons rfl List.Forall₂.nil)
  · simp [bothGroup, bothColumns]
  · intro g hg _ tc htc _ v _
    obtain rfl := mem_singleton.mp hg
    have hmem : tc.2.1 ∈ bothColumns := by
      have h := (of_mem_zip htc).2
      simp only [bothGroup, mem_cons, not_mem_nil, or_false] at h
      rcases h with h | h <;> simp [h, bothColumns]
    exact readable_bothColumns hmem v

end PgColumnar.Parquet
