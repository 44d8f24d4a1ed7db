import PgColumnar.Parquet.Assemble

/-!
# Reading a data file by field id

A data file of an Iceberg table is read by the field ids of its columns, as the table's schema may
have changed since the file was written (`columnar_parquet_reader.c`).  Each output column is bound
to the leaf that carries its id, or that a name mapping gives it; an id that the file does not have
reads as null, or is an error.  Only scalars are bound, so that a leaf has one entry for each row.

What a chunk decodes to under a plan is a part of the file, and the length coercions are parameters.

## Main definitions

* `bindFieldId` — how a column reads the leaf with its field id.
* `readGroups` — the rows of a file without some positions.

## Main results

* `readGroups_eq_ok_iff` — which rows those are.
-/

namespace PgColumnar.Iceberg

open Parquet List Option

/-! ### Files -/

/-- A leaf of the file; `fieldId` is `none` for the -1 of a column without an id. -/
structure FileLeaf where
  info : PqLeafInfo
  fieldId : Option ℕ
  name : String
  depth : ℕ

/-- A row group; `chunk` is what the chunk of a leaf decodes to under a plan. -/
structure RowGroup where
  numRows : ℕ
  chunk : ℕ → PqColPlan → Option LeafCursor

/-- A file whose footer has been read; `groupIds` are the field ids of the nested columns. -/
structure DataFile where
  leaves : List FileLeaf
  groupIds : List ℕ
  groups : List RowGroup

/-- An attribute of the output; an array or a row type is not a scalar. -/
structure Att where
  dropped : Bool
  scalar : Bool
  typid : TypeOid
  typmod : ℤ

inductive ReadError where
  | noFieldIds
  | fieldIdCount
  | notScalar
  | notUnique (id : ℕ)
  | nested (id : ℕ)
  | absent (id : ℕ)
  | requestedTwice (id : ℕ)
  | repeated (id : ℕ)
  | unsupported
  | incompatible (id : ℕ)
  | cannotDecode (leaf : ℕ)
  | malformedRow
  deriving DecidableEq

/-! ### The binding -/

/-- The entries of the name mapping, in their order. -/
abbrev NameMapping := List (String × ℕ)

/-- `eff_id`: the leaf's own id, or the one that the mapping gives its name. -/
def effId (f : DataFile) (nm : NameMapping) (l : FileLeaf) : Option ℕ :=
  match l.fieldId with
  | some id => some id
  | none =>
    if l.depth ≠ 1 then none
    else
      match nm.find? fun e => e.1 = l.name with
      | none => none
      | some e => if f.leaves.any fun l' => l'.fieldId = some e.2 then none else some e.2

/-- The leaves that carry an id. -/
def carriers (f : DataFile) (nm : NameMapping) (id : ℕ) : List ℕ :=
  (List.range f.leaves.length).filter fun j => (f.leaves[j]?.bind (effId f nm)) = some id

/-- `ImpTop` -/
structure Top where
  attno : ℕ
  leaf : ℕ
  imp : ImpLeaf

variable (coercionFunction : TypeOid → Bool)

/-- `PQ_CT_INT_8`, `PQ_CT_INT_16`, `PQ_CT_INT_32` -/
def ctInts : List ℤ := [15, 16, 17]

/-- `pq_field_id_widens` -/
def pqFieldIdWidens (sc : PqSchemaCol) (typid : TypeOid) : Bool :=
  if typid = .int8 ∧ sc.physType = .int32 then
    decide (sc.timeUnit = .none ∧ (sc.convertedType < 0 ∨ sc.convertedType ∈ ctInts))
  else decide (typid = .float8 ∧ sc.physType = .float)

/-- The physical types, and the plan of the column. -/
def bindFieldId (att : Att) (id : ℕ) (info : PqLeafInfo) : Except ReadError ImpLeaf :=
  if info.maxRep ≠ 0 then .error (.repeated id)
  else
    match pqWantPhysFor att.typid info.sc with
    | none => .error .unsupported
    | some want =>
      let want := if pqFieldIdWidens info.sc att.typid then info.sc.physType else want
      if info.sc.physType ≠ want then .error (.incompatible id)
      else .ok ⟨pqPlanSetTypmod coercionFunction
        (pqPlanBindSchema att.typid want info.sc) att.typmod info.sc,
        info.maxDef, info.maxRep⟩

/-- The loop over the attributes, from the attribute `i` on. -/
def bindAtts (f : DataFile) (nm : NameMapping) (missingAsNull : Bool) :
    ℕ → List Att → List ℕ → List Top → Except ReadError (List Top)
  | _, [], _, tops => .ok tops
  | i, att :: atts, ids, tops =>
    if att.dropped then bindAtts f nm missingAsNull (i + 1) atts ids tops
    else
      match ids with
      | [] => .error .fieldIdCount
      | id :: ids =>
        if att.scalar = false then .error .notScalar
        else
          match carriers f nm id with
          | [] =>
            if id ∈ f.groupIds then .error (.nested id)
            else if missingAsNull then bindAtts f nm missingAsNull (i + 1) atts ids tops
            else .error (.absent id)
          | [j] =>
            if tops.any fun t => t.leaf = j then .error (.requestedTwice id)
            else
              match f.leaves[j]? with
              | none => .error (.absent id)
              | some l =>
                match bindFieldId coercionFunction att id l.info with
                | .error e => .error e
                | .ok imp => bindAtts f nm missingAsNull (i + 1) atts ids (tops ++ [⟨i, j, imp⟩])
          | _ => .error (.notUnique id)

/-- `build_imp_targets_by_field_id` -/
def buildImpTargetsByFieldId (f : DataFile) (atts : List Att) (ids : List ℕ) (nm : NameMapping)
    (missingAsNull : Bool) : Except ReadError (List Top) :=
  if f.leaves.all fun l => (effId f nm l).isNone then .error .noFieldIds
  else if atts.countP (fun a => !a.dropped) ≠ ids.length then .error .fieldIdCount
  else bindAtts coercionFunction f nm missingAsNull 0 atts ids []

/-! ### The rows -/

variable (coerceFn : TypeOid → ℤ → Datum → Option Datum)

abbrev Row := List (Option Datum)

/-- The cursor into the sorted positions: whether the row at `ord` is deleted, and the rest. -/
def takeSkip (ord : ℕ) (skip : List ℕ) : Bool × List ℕ :=
  match skip.dropWhile (· < ord) with
  | [] => (false, [])
  | p :: rest => if p = ord then (true, rest) else (false, p :: rest)

/-- The leaf as it is read in a row; a row that is deleted is not coerced. -/
def leafOf (deleted : Bool) (imp : ImpLeaf) : ImpLeaf :=
  if deleted then { imp with plan := { imp.plan with coerce := false } } else imp

/-- The loop over the bound columns: the row, and the cursors behind it. -/
def assemble (deleted : Bool) : List (Top × LeafCursor) → Row →
    Except ReadError (Row × List (Top × LeafCursor))
  | [], row => .ok (row, [])
  | (t, c) :: cs, row =>
    match readScalar coerceFn (leafOf deleted t.imp) c with
    | none => .error .malformedRow
    | some (value, c') =>
      match assemble deleted cs (row.set t.attno value) with
      | .error e => .error e
      | .ok (row, cs') => .ok (row, (t, c') :: cs')

/-- The row loop of a row group, with the rows that are returned. -/
def readRows (natts : ℕ) : ℕ → ℕ → List ℕ → List (Top × LeafCursor) →
    Except ReadError (List Row × List ℕ)
  | 0, _, skip, _ => .ok ([], skip)
  | n + 1, ord, skip, cs =>
    match assemble coerceFn (takeSkip ord skip).1 cs (List.replicate natts none) with
    | .error e => .error e
    | .ok (row, cs') =>
      match readRows natts n (ord + 1) (takeSkip ord skip).2 cs' with
      | .error e => .error e
      | .ok (rows, skip') => .ok (if (takeSkip ord skip).1 then rows else row :: rows, skip')

/-- The leaves of the columns that are read. -/
def decodeTops (g : RowGroup) : List Top → Except ReadError (List (Top × LeafCursor))
  | [] => .ok []
  | t :: ts =>
    match g.chunk t.leaf t.imp.plan with
    | none => .error (.cannotDecode t.leaf)
    | some c =>
      match decodeTops g ts with
      | .error e => .error e
      | .ok cs => .ok ((t, c) :: cs)

/-- The columns that the scan needs; the mask is over the bound columns. -/
def neededTops (needTop : Option (List Bool)) (tops : List Top) : List Top :=
  (tops.zipIdx.filter fun t => needTop.elim true fun mask => mask[t.2]?.getD false).map (·.1)

/-- The loop over the row groups, from the ordinal `grpBase` on. -/
def readGroups (natts : ℕ) (tops : List Top) :
    ℕ → List ℕ → List RowGroup → Except ReadError (List Row)
  | _, _, [] => .ok []
  | grpBase, skip, g :: gs =>
    match decodeTops g tops with
    | .error e => .error e
    | .ok cs =>
      match readRows coerceFn natts g.numRows grpBase skip cs with
      | .error e => .error e
      | .ok (rows, skip') =>
        match readGroups natts tops (grpBase + g.numRows) skip' gs with
        | .error e => .error e
        | .ok more => .ok (rows ++ more)

/-- `pq_read_rows`, over all row groups -/
def pqReadRows (f : DataFile) (natts : ℕ) (tops : List Top) (needTop : Option (List Bool))
    (skipPos : List ℕ) : Except ReadError (List Row) :=
  readGroups coerceFn natts (neededTops needTop tops) 0 skipPos f.groups

/-- `pq_read_file_into`, with field ids -/
def readFileInto (f : DataFile) (atts : List Att) (ids : List ℕ) (nm : NameMapping)
    (missingAsNull : Bool)
    (skipPos : List ℕ) (needTop : Option (List Bool)) : Except ReadError (List Row) :=
  match buildImpTargetsByFieldId coercionFunction f atts ids nm missingAsNull with
  | .error e => .error e
  | .ok tops => pqReadRows coerceFn f atts.length tops needTop skipPos

/-- `PgColumnarReadParquetByFieldId` -/
def readParquetByFieldId (f : DataFile) (atts : List Att) (ids : List ℕ) :
    Except ReadError (List Row) :=
  readFileInto coercionFunction coerceFn f atts ids [] false [] none

/-- `PgColumnarReadParquetByFieldIdNM` -/
def readParquetByFieldIdNM (f : DataFile) (atts : List Att) (ids : List ℕ) (nm : NameMapping)
    (skipPos : List ℕ) (needTop : Option (List Bool)) : Except ReadError (List Row) :=
  readFileInto coercionFunction coerceFn f atts ids nm true skipPos needTop

/-! ### The rows before a deletion -/

/-- The values that the bound columns have in a row, before they are coerced. -/
abbrev RawRow := List (Top × Option Datum)

/-- The next value of a leaf. -/
def takeRaw (maxDef : ℕ) (c : LeafCursor) : Option (Option Datum × LeafCursor) :=
  match c.levels with
  | [] => none
  | level :: levels =>
    if level.defn = maxDef then
      match c.vals with
      | [] => none
      | v :: vals => some (some v, ⟨levels, vals⟩)
    else some (none, ⟨levels, c.vals⟩)

def rawRow : List (Top × LeafCursor) → Option (RawRow × List (Top × LeafCursor))
  | [] => some ([], [])
  | (t, c) :: cs => (takeRaw t.imp.maxDef c).bind fun r =>
      (rawRow cs).map fun rest => ((t, r.1) :: rest.1, (t, r.2) :: rest.2)

def rawRows : ℕ → List (Top × LeafCursor) → Option (List RawRow)
  | 0, _ => some []
  | n + 1, cs => (rawRow cs).bind fun r => (rawRows n r.2).map fun rows => r.1 :: rows

/-- The rows of the file, by their ordinals. -/
def rawGroups (tops : List Top) : List RowGroup → Option (List RawRow)
  | [] => some []
  | g :: gs => (decodeTops g tops).toOption.bind fun cs =>
      (rawRows g.numRows cs).bind fun rows => (rawGroups tops gs).map fun more => rows ++ more

/-- A row as it is returned. -/
def coerceRow : RawRow → Row → Option Row
  | [], row => some row
  | (t, v) :: raw, row =>
    (returnedValue coerceFn t.imp v).bind fun x => coerceRow raw (row.set t.attno x)

/-- What is not deleted of a list whose positions begin at `base`. -/
def kept {α : Type} (del : ℕ → Bool) (base : ℕ) (l : List α) : List α :=
  ((l.zipIdx base).filter fun r => !del r.2).map (·.1)

section Kept

variable {α : Type} {del : ℕ → Bool} {base : ℕ}

@[simp] theorem kept_nil : kept del base ([] : List α) = [] := rfl

theorem kept_cons (a : α) (l : List α) :
    kept del base (a :: l) = if del base then kept del (base + 1) l else a ::
      kept del (base + 1) l := by
  unfold kept
  cases h : del base <;> simp [zipIdx_cons, h]

theorem kept_append (l l' : List α) :
    kept del base (l ++ l') = kept del base l ++ kept del (base + l.length) l' := by
  simp [kept, zipIdx_append]

theorem kept_congr {del' : ℕ → Bool} {l : List α}
    (h : ∀ i, base ≤ i → i < base + l.length → del i = del' i) :
    kept del base l = kept del' base l := by
  induction l generalizing base with
  | nil => rfl
  | cons a l ih =>
    have hlen : base < base + (a :: l).length := by simp
    have htail : kept del (base + 1) l = kept del' (base + 1) l := by
      refine ih fun i hi hlt => h i (by omega) ?_
      rw [length_cons]
      omega
    rw [kept_cons, kept_cons, h base (Nat.le_refl _) hlen, htail]

end Kept

/-! ### The cursor -/

section Skip

theorem takeSkip_fst {ord : ℕ} {skip : List ℕ} (hskip : skip.Pairwise (· < ·)) :
    (takeSkip ord skip).1 = decide (ord ∈ skip) := by
  unfold takeSkip
  induction skip with
  | nil => rfl
  | cons p skip ih =>
    obtain ⟨hp, hskip⟩ := pairwise_cons.mp hskip
    by_cases hlt : p < ord
    · have hne : ord ≠ p := by omega
      rw [dropWhile_cons_of_pos (by simpa using hlt), ih hskip]
      simp [hne]
    · rw [dropWhile_cons_of_neg (by simpa using hlt)]
      dsimp only
      split
      · next heq => simp [heq]
      · next hne =>
        -- the positions behind are greater still
        have hnot : ord ∉ skip := fun hmem => by
          have hlt' := hp ord hmem
          omega
        have hne' : ord ≠ p := fun h => hne h.symm
        simp [hnot, hne']

theorem takeSkip_snd {ord : ℕ} {skip : List ℕ} (hskip : skip.Pairwise (· < ·)) :
    (takeSkip ord skip).2.Pairwise (· < ·) ∧
    ∀ p, ord < p → (p ∈ (takeSkip ord skip).2 ↔ p ∈ skip) := by
  unfold takeSkip
  induction skip with
  | nil => exact ⟨List.Pairwise.nil, fun p _ => Iff.rfl⟩
  | cons q skip ih =>
    obtain ⟨hq, hskip'⟩ := pairwise_cons.mp hskip
    by_cases hlt : q < ord
    · rw [dropWhile_cons_of_pos (by simpa using hlt)]
      obtain ⟨hpair, hmem⟩ := ih hskip'
      refine ⟨hpair, fun p hp => (hmem p hp).trans ?_⟩
      have hne : p ≠ q := by omega
      simp [hne]
    · rw [dropWhile_cons_of_neg (by simpa using hlt)]
      dsimp only
      split
      · next heq =>
        refine ⟨hskip', fun p hp => ?_⟩
        have hne : p ≠ q := by omega
        simp [hne]
      · exact ⟨hskip, fun p _ => Iff.rfl⟩

end Skip

/-! ### What is returned -/

variable {coercionFunction coerceFn} {t : Top} {c : LeafCursor} {cs : List (Top × LeafCursor)}
  {row₀ : Row}

theorem readScalar_leafOf_false : readScalar coerceFn (leafOf false t.imp) c =
    (takeRaw t.imp.maxDef c).bind fun r => (returnedValue coerceFn t.imp r.1).map fun x =>
      (x, r.2) := by
  unfold readScalar takeRaw takeEntry leafOf
  rcases c with ⟨_ | ⟨level, levels⟩, vals⟩
  · rfl
  · by_cases h : level.defn = t.imp.maxDef
    · cases vals with
      | nil => simp [h]
      | cons v vals => simp [h, returnedValue, Function.comp_def]
    · simp [h, returnedValue]

theorem readScalar_leafOf_true : readScalar coerceFn (leafOf true t.imp) c =
    takeRaw t.imp.maxDef c := by
  unfold readScalar takeRaw takeEntry leafOf
  rcases c with ⟨_ | ⟨level, levels⟩, vals⟩
  · rfl
  · by_cases h : level.defn = t.imp.maxDef
    · cases vals with
      | nil => simp [h]
      | cons v vals => simp [h, pqTakeValue]
    · simp [h]

/-- A row that is kept is assembled from its values, coerced. -/
theorem assemble_false {cs' : List (Top × LeafCursor)} {row : Row} :
    assemble coerceFn false cs row₀ = .ok (row, cs') ↔
      ∃ raw, rawRow cs = some (raw, cs') ∧ coerceRow coerceFn raw row₀ = some row := by
  induction cs generalizing row₀ row cs' with
  | nil =>
    simp only [assemble, rawRow, Except.ok.injEq, Prod.mk.injEq, Option.some.injEq]
    constructor
    · intro ⟨hrow, hcs⟩
      exact ⟨[], ⟨rfl, hcs⟩, congrArg some hrow⟩
    · intro ⟨raw, ⟨hraw, hcs⟩, hrow⟩
      subst hraw
      exact ⟨Option.some.inj hrow, hcs⟩
  | cons tc cs ih =>
    obtain ⟨t, c⟩ := tc
    rw [assemble, rawRow, readScalar_leafOf_false]
    cases hraw : takeRaw t.imp.maxDef c with
    | none => simp
    | some r =>
      cases hval : returnedValue coerceFn t.imp r.1 with
      | none =>
        simp only [bind_some, hval, map_none, reduceCtorEq, false_iff]
        intro ⟨raw, hrest, hrow⟩
        obtain ⟨rest, -, heq⟩ := map_eq_some_iff.mp hrest
        obtain ⟨rfl, -⟩ := Prod.ext_iff.mp heq
        simp [coerceRow, hval] at hrow
      | some x =>
        simp only [bind_some, hval, map_some]
        cases hrest : assemble coerceFn false cs (row₀.set t.attno x) with
        | error e =>
          simp only [reduceCtorEq, false_iff]
          intro ⟨raw, hmap, hrow⟩
          obtain ⟨rest, hrest', heq⟩ := map_eq_some_iff.mp hmap
          obtain ⟨rfl, -⟩ := Prod.ext_iff.mp heq
          simp only [coerceRow, hval, bind_some] at hrow
          have hok := ih.mpr ⟨rest.1, hrest', hrow⟩
          rw [hrest] at hok
          cases hok
        | ok out =>
          obtain ⟨row', cs''⟩ := out
          obtain ⟨raw, hraw', hrow'⟩ := ih.mp hrest
          rw [hraw']
          simp only [map_some, Except.ok.injEq, Prod.mk.injEq, Option.some.injEq]
          constructor
          · intro ⟨hrow, hcs⟩
            refine ⟨(t, r.1) :: raw, ⟨rfl, hcs⟩, ?_⟩
            simp only [coerceRow, hval, bind_some, hrow', hrow]
          · intro ⟨raw', ⟨hraw'', hcs⟩, hrow⟩
            subst hraw''
            simp only [coerceRow, hval, bind_some, hrow', Option.some.injEq] at hrow
            exact ⟨hrow, hcs⟩

/-- A row that is deleted consumes its values. -/
theorem assemble_true : match assemble coerceFn true cs row₀ with
    | .ok (_, cs') => ∃ raw, rawRow cs = some (raw, cs')
    | .error _ => rawRow cs = none := by
  induction cs generalizing row₀ with
  | nil => exact ⟨[], rfl⟩
  | cons tc cs ih =>
    obtain ⟨t, c⟩ := tc
    rw [assemble, rawRow, readScalar_leafOf_true]
    cases takeRaw t.imp.maxDef c with
    | none => rfl
    | some r =>
      have hrest := @ih (row₀.set t.attno r.1)
      dsimp only
      cases hres : assemble coerceFn true cs (row₀.set t.attno r.1) with
      | error e =>
        rw [hres] at hrest
        simp [hrest]
      | ok out =>
        rw [hres] at hrest
        obtain ⟨raw, hraw⟩ := hrest
        exact ⟨(t, r.1) :: raw, by simp [hraw]⟩

theorem rawRow_length {cs' : List (Top × LeafCursor)} {raw : RawRow}
    (h : rawRow cs = some (raw, cs')) :
    raw.map (·.1) = cs.map (·.1) ∧ cs'.map (·.1) = cs.map (·.1) := by
  induction cs generalizing raw cs' with
  | nil =>
    cases h
    exact ⟨rfl, rfl⟩
  | cons tc cs ih =>
    obtain ⟨t, c⟩ := tc
    obtain ⟨r, -, hrest⟩ := bind_eq_some_iff.mp h
    obtain ⟨⟨raw', cs''⟩, hrest', heq⟩ := map_eq_some_iff.mp hrest
    obtain ⟨rfl, rfl⟩ := Prod.ext_iff.mp heq
    obtain ⟨hraw, hcs⟩ := ih hrest'
    exact ⟨congrArg (t :: ·) hraw, congrArg (t :: ·) hcs⟩

variable {raws : List RawRow}

theorem rawRows_length {n : ℕ} (h : rawRows n cs = some raws) : raws.length = n := by
  induction n generalizing cs raws with
  | zero =>
    cases h
    rfl
  | succ n ih =>
    obtain ⟨r, -, hrest⟩ := bind_eq_some_iff.mp h
    obtain ⟨rows, hrows, rfl⟩ := map_eq_some_iff.mp hrest
    rw [length_cons, ih hrows]

/-- The rows that are returned of the rows at the ordinals from `base` on. -/
def returnedRows (coerceFn : TypeOid → ℤ → Datum → Option Datum) (natts : ℕ) (del : ℕ → Bool)
    (base : ℕ)
    (raws : List RawRow) : Option (List Row) :=
  (kept del base raws).mapM fun raw => coerceRow coerceFn raw (List.replicate natts none)

variable {natts : ℕ}

@[simp] theorem returnedRows_nil {base : ℕ} {del : ℕ → Bool} :
    returnedRows coerceFn natts del base [] = some [] := rfl

theorem returnedRows_cons {base : ℕ} {del : ℕ → Bool} {raw : RawRow} :
    returnedRows coerceFn natts del base (raw :: raws) =
      if del base then returnedRows coerceFn natts del (base + 1) raws
      else (coerceRow coerceFn raw (List.replicate natts none)).bind fun row =>
        (returnedRows coerceFn natts del (base + 1) raws).map fun rows => row :: rows := by
  unfold returnedRows
  rw [kept_cons]
  split
  · rfl
  · rw [mapM_cons]
    simp only [map_eq_bind]
    rfl

theorem returnedRows_append {base : ℕ} {del : ℕ → Bool} {raws' : List RawRow} :
    returnedRows coerceFn natts del base (raws ++ raws') =
      (returnedRows coerceFn natts del base raws).bind fun rows =>
        (returnedRows coerceFn natts del (base + raws.length) raws').map fun more =>
          rows ++ more := by
  unfold returnedRows
  rw [kept_append, mapM_append]
  simp only [map_eq_bind]
  rfl

theorem returnedRows_congr {base : ℕ} {del del' : ℕ → Bool}
    (h : ∀ i, base ≤ i → i < base + raws.length → del i = del' i) :
    returnedRows coerceFn natts del base raws = returnedRows coerceFn natts del' base raws := by
  unfold returnedRows
  rw [kept_congr h]

/-- The row loop returns the rows whose ordinals are not among the positions, and moves the cursor
behind them. -/
theorem readRows_spec {n ord : ℕ} {skip : List ℕ} (hskip : skip.Pairwise (· < ·)) :
    match readRows coerceFn natts n ord skip cs with
    | .ok (rows, skip') => (∃ raws, rawRows n cs = some raws ∧
        returnedRows coerceFn natts (fun i => decide (i ∈ skip)) ord raws = some rows) ∧
        skip'.Pairwise (· < ·) ∧ ∀ p, ord + n ≤ p → (p ∈ skip' ↔ p ∈ skip)
    | .error _ => ∀ raws, rawRows n cs = some raws →
        returnedRows coerceFn natts (fun i => decide (i ∈ skip)) ord raws = none := by
  induction n generalizing ord skip cs with
  | zero => exact ⟨⟨[], rfl, rfl⟩, hskip, fun p _ => Iff.rfl⟩
  | succ n ih =>
    have hfst : (takeSkip ord skip).1 = decide (ord ∈ skip) := takeSkip_fst hskip
    obtain ⟨hskip', hmem⟩ := @takeSkip_snd ord skip hskip
    -- behind the row, the moved cursor tells the same positions
    have hsame : ∀ raws : List RawRow, returnedRows coerceFn natts
      (fun i => decide (i ∈ (takeSkip ord skip).2)) (ord + 1) raws =
        returnedRows coerceFn natts (fun i => decide (i ∈ skip)) (ord + 1) raws := by
      intro raws
      exact returnedRows_congr fun i hi _ => by simp only [hmem i hi]
    rw [readRows, hfst]
    cases hdel : decide (ord ∈ skip) with
    | true =>
      have hassemble := @assemble_true coerceFn cs (List.replicate natts none)
      cases hres : assemble coerceFn true cs (List.replicate natts none) with
      | error e =>
        rw [hres] at hassemble
        intro raws hraws
        simp [rawRows, hassemble] at hraws
      | ok out =>
        rw [hres] at hassemble
        obtain ⟨row, cs'⟩ := out
        obtain ⟨raw, hraw⟩ := hassemble
        have hrest := @ih cs' (ord + 1) (takeSkip ord skip).2 hskip'
        dsimp only
        cases hres' : readRows coerceFn natts n (ord + 1) (takeSkip ord skip).2 cs' with
        | error e =>
          rw [hres'] at hrest
          intro raws hraws
          simp only [rawRows, hraw, bind_some] at hraws
          obtain ⟨rows, hrows, rfl⟩ := map_eq_some_iff.mp hraws
          rw [returnedRows_cons, hdel, if_pos rfl, ← hsame]
          exact hrest rows hrows
        | ok out' =>
          rw [hres'] at hrest
          obtain ⟨rows, skip'⟩ := out'
          obtain ⟨⟨raws, hraws, hrows⟩, hpair, hmem'⟩ := hrest
          refine ⟨⟨raw :: raws, by simp [rawRows, hraw, hraws], ?_⟩, hpair, fun p hp => ?_⟩
          · rw [returnedRows_cons, hdel, if_pos rfl, ← hsame, hrows]
            rfl
          · exact (hmem' p (by omega)).trans (hmem p (by omega))
    | false =>
      cases hres : assemble coerceFn false cs (List.replicate natts none) with
      | error e =>
        intro raws hraws
        obtain ⟨r, hr, hrest⟩ := bind_eq_some_iff.mp hraws
        obtain ⟨rows, -, rfl⟩ := map_eq_some_iff.mp hrest
        rw [returnedRows_cons, hdel, if_neg (by simp)]
        cases hrow : coerceRow coerceFn r.1 (List.replicate natts none) with
        | none => rfl
        | some row =>
          have hok := assemble_false.mpr ⟨r.1, hr, hrow⟩
          rw [hres] at hok
          cases hok
      | ok out =>
        obtain ⟨row, cs'⟩ := out
        obtain ⟨raw, hraw, hrow⟩ := assemble_false.mp hres
        have hrest := @ih cs' (ord + 1) (takeSkip ord skip).2 hskip'
        dsimp only
        cases hres' : readRows coerceFn natts n (ord + 1) (takeSkip ord skip).2 cs' with
        | error e =>
          rw [hres'] at hrest
          intro raws hraws
          simp only [rawRows, hraw, bind_some] at hraws
          obtain ⟨rows, hrows, rfl⟩ := map_eq_some_iff.mp hraws
          rw [returnedRows_cons, hdel, if_neg (by simp), hrow, ← hsame, hrest rows hrows]
          rfl
        | ok out' =>
          rw [hres'] at hrest
          obtain ⟨rows, skip'⟩ := out'
          obtain ⟨⟨raws, hraws, hrows⟩, hpair, hmem'⟩ := hrest
          refine ⟨⟨raw :: raws, by simp [rawRows, hraw, hraws], ?_⟩, hpair, fun p hp => ?_⟩
          · rw [returnedRows_cons, hdel, if_neg (by simp), hrow, ← hsame, hrows]
            rfl
          · exact (hmem' p (by omega)).trans (hmem p (by omega))

/-- **The rows of a file that are returned** are those whose ordinals are not among the sorted
positions, coerced. -/
theorem readGroups_eq_ok_iff {base : ℕ} {tops : List Top} {skip : List ℕ} {gs : List RowGroup}
    {rows : List Row} (hskip : skip.Pairwise (· < ·)) :
    readGroups coerceFn natts tops base skip gs = .ok rows ↔
      ∃ raws, rawGroups tops gs = some raws ∧
        returnedRows coerceFn natts (fun i => decide (i ∈ skip)) base raws = some rows := by
  induction gs generalizing base skip rows with
  | nil => simp [readGroups, rawGroups]
  | cons g gs ih =>
    rw [readGroups, rawGroups]
    cases hdecode : decodeTops g tops with
    | error e => simp [Except.toOption]
    | ok cs =>
      have hspec := @readRows_spec coerceFn cs natts g.numRows base skip hskip
      dsimp only [Except.toOption]
      rw [bind_some]
      cases hres : readRows coerceFn natts g.numRows base skip cs with
      | error e =>
        rw [hres] at hspec
        simp only [reduceCtorEq, false_iff]
        intro ⟨raws, hraws, hrows⟩
        obtain ⟨first, hfirst, hmore⟩ := bind_eq_some_iff.mp hraws
        obtain ⟨more, -, rfl⟩ := map_eq_some_iff.mp hmore
        rw [returnedRows_append, hspec first hfirst] at hrows
        cases hrows
      | ok out =>
        rw [hres] at hspec
        obtain ⟨rows', skip'⟩ := out
        obtain ⟨⟨first, hfirst, hrows'⟩, hpair, hmem⟩ := hspec
        have hlen := rawRows_length hfirst
        -- the positions left over are those behind the group
        have hsame : ∀ more : List RawRow, returnedRows coerceFn natts (fun i => decide (i ∈ skip'))
          (base + g.numRows) more =
            returnedRows coerceFn natts (fun i => decide (i ∈ skip)) (base + g.numRows) more := by
          intro more
          exact returnedRows_congr fun i hi _ => by simp only [hmem i hi]
        have hmore := @ih (base + g.numRows) skip'
        dsimp only
        rw [hfirst, bind_some]
        constructor
        · intro hok
          cases hread : readGroups coerceFn natts tops (base + g.numRows) skip' gs with
          | error e =>
            rw [hread] at hok
            cases hok
          | ok rest =>
            rw [hread] at hok
            cases hok
            obtain ⟨more, hraw, hrest⟩ := (hmore hpair).mp hread
            refine ⟨first ++ more, by rw [hraw]; rfl, ?_⟩
            rw [returnedRows_append, hrows', hlen, ← hsame, hrest]
            rfl
        · intro ⟨raws, hraws, hrows⟩
          obtain ⟨more, hraw, rfl⟩ := map_eq_some_iff.mp hraws
          rw [returnedRows_append, hrows', hlen, ← hsame, bind_some] at hrows
          obtain ⟨rest, hrest, rfl⟩ := map_eq_some_iff.mp hrows
          rw [(hmore hpair).mpr ⟨more, hraw, hrest⟩]

end PgColumnar.Iceberg
