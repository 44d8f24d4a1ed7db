import PgColumnar.Parquet.Plan
import PgColumnar.Thrift.Values

/-!
# The footer of a Parquet file

`parse_file_metadata` and what it calls.  Every list of the footer is walked with a loop over its
elements; an element takes a byte, so that a count larger than the file ends in an error.

## Main definitions

* `parseFileMetadata` — the footer.

## Main results

* `parseFileMetadata_spec` — it ends, inside the buffer.
* `thrift_in_step` — the reader stays in step with what was written.
-/

namespace PgColumnar.Thrift

open Bytes Cursor Steps

/-! ### What the footer holds -/

structure PqSchemaCol where
  physType : ℤ
  repetition : ℤ
  convertedType : ℤ
  timeUnit : TimeUnit
  isTimestamp : Bool
  adjustedUtc : Bool
  isUnsigned : Bool
  typeLength : ℤ
  scale : ℤ
  precision : ℤ
  numChildren : ℤ
  numChildrenStored : ℤ
  fieldId : ℤ
  name : Option (List Byte)

structure PqChunk where
  codec : ℤ
  numValues : ℤ
  dataPageOffset : ℤ
  dictPageOffset : ℤ
  totalCompressedSize : ℤ
  statMin : Option (List Byte)
  statMax : Option (List Byte)
  repHistLen : ℤ
  defHistLen : ℤ

structure PqRowGroup where
  numRows : Option ℤ
  chunks : List PqChunk

structure PqLeafInfo where
  sc : PqSchemaCol
  maxDef : ℕ
  maxRep : ℕ
  depth : ℕ

structure PqFile where
  elems : List PqSchemaCol
  leaves : List PqLeafInfo
  ntop : ℤ
  rgs : Option (List PqRowGroup)
  numRows : Option ℤ

/-- The sizes of the structures, for the limit of an allocation. -/
structure Sizes where
  schemaCol : ℕ
  rowGroup : ℕ
  chunk : ℕ

/-- `palloc0` of an array, up to `MaxAllocSize` -/
def allocArray (size n : ℕ) : Reader Unit :=
    if 1073741823 < size * max n 1 then throw .allocSize else pure ()

section Parse

variable (buf : List Byte)

/-- The fields that are numbers. -/
def intField : Reader ℤ := do
  let z ← thriftZigzag buf
  return castInt z

/-! ### Column chunks -/

/-- `parse_statistics`: the preferred bounds replace the deprecated ones. -/
def statisticsField (skip : ℕ → Reader Unit) (ch : PqChunk) (ftype : ℕ) (fid : ℤ) :
    Reader PqChunk :=
  if fid = 1 then do
    let p ← thriftBytes buf
    pure { ch with statMax := ch.statMax <|> p }
  else if fid = 2 then do
    let p ← thriftBytes buf
    pure { ch with statMin := ch.statMin <|> p }
  else if fid = 5 then do
    let p ← thriftBytes buf
    pure { ch with statMax := p <|> ch.statMax }
  else if fid = 6 then do
    let p ← thriftBytes buf
    pure { ch with statMin := p <|> ch.statMin }
  else do
    skip ftype
    pure ch

/-- A level histogram: its elements are skipped as fields, and only the count is kept. -/
def histogram (skip : ℕ → Reader Unit) : Reader ℕ := do
  let (n, etype) ← thriftListHeader buf
  elements etype true (fun _ => skip etype) n ()
  return n

/-- `parse_size_statistics` -/
def sizeStatisticsField (skip : ℕ → Reader Unit) (ch : PqChunk) (ftype : ℕ) (fid : ℤ) :
    Reader PqChunk :=
  if (fid = 2 ∨ fid = 3) ∧ ftype = 9 then do
    let n ← histogram buf skip
    if n = 0 then pure ch
    else if fid = 2 then pure { ch with repHistLen := n }
    else pure { ch with defHistLen := n }
  else do
    skip ftype
    pure ch

/-- `parse_column_meta` -/
def columnMetaField (skip : ℕ → Reader Unit) (ch : PqChunk) (ftype : ℕ) (fid : ℤ) :
    Reader PqChunk :=
  if fid = 4 then do
    let z ← intField buf
    pure { ch with codec := z }
  else if fid = 5 then do
    let z ← thriftZigzag buf
    pure { ch with numValues := z }
  else if fid = 7 then do
    let z ← thriftZigzag buf
    pure { ch with totalCompressedSize := z }
  else if fid = 9 then do
    let z ← thriftZigzag buf
    pure { ch with dataPageOffset := z }
  else if fid = 11 then do
    let z ← thriftZigzag buf
    pure { ch with dictPageOffset := z }
  else if fid = 12 ∧ ftype = 12 then structLoop buf (statisticsField buf skip) ch
  else if fid = 16 ∧ ftype = 12 then structLoop buf (sizeStatisticsField buf skip) ch
  else do
    skip ftype
    pure ch

def parseColumnMeta (skip : ℕ → Reader Unit) : Reader PqChunk :=
  structLoop buf (columnMetaField buf skip) ⟨0, 0, 0, 0, 0, none, none, -1, -1⟩

/-- `parse_column_chunk`, of a chunk that is all zero -/
def parseColumnChunk (skip : ℕ → Reader Unit) : Reader PqChunk :=
  structLoop buf (fun ch ftype fid =>
    if fid = 3 ∧ ftype = 12 then parseColumnMeta buf skip
    else do
      skip ftype
      pure ch) ⟨0, 0, 0, 0, 0, none, none, 0, 0⟩

/-! ### Schema elements -/

/-- The unit of a time: its one field, an empty struct, and the stop of the union. -/
def timeUnitMember (skip : ℕ → Reader Unit) (isTs : Bool) (sc : PqSchemaCol) :
    Reader PqSchemaCol := do
  let (uft, ufid) ← thriftField buf 0
  let r ← get
  if uft = 0 ∨ r.error then pure sc
  else do
    let unit := if ufid = 1 then .millis else if ufid = 2 then .micros else if ufid =
      3 then .nanos else sc.timeUnit
    skip uft
    let _ ← thriftField buf ufid
    pure { sc with timeUnit := unit, isTimestamp := isTs }

def timeTypeField (skip : ℕ → Reader Unit) (isTs : Bool) (sc : PqSchemaCol) (ftype : ℕ) (fid : ℤ) :
    Reader PqSchemaCol :=
  if fid = 2 ∧ ftype = 12 then timeUnitMember buf skip isTs sc
  else if fid = 1 ∧ isTs = true ∧ IsBool ftype then pure { sc with adjustedUtc := ftype == 1 }
  else do
    skip ftype
    pure sc

def intTypeField (skip : ℕ → Reader Unit) (sc : PqSchemaCol) (ftype : ℕ) (fid : ℤ) :
    Reader PqSchemaCol :=
  if fid = 2 ∧ IsBool ftype then pure { sc with isUnsigned := ftype == 2 }
  else do
    skip ftype
    pure sc

/-- `parse_logical_type` -/
def logicalTypeField (skip : ℕ → Reader Unit) (sc : PqSchemaCol) (ftype : ℕ) (fid : ℤ) :
    Reader PqSchemaCol :=
  if (fid = 7 ∨ fid = 8) ∧ ftype = 12 then structLoop buf (timeTypeField buf skip (fid == 8)) sc
  else if fid = 10 ∧ ftype = 12 then structLoop buf (intTypeField skip) sc
  else do
    skip ftype
    pure sc

/-- The count of children as an `int`, or -1. -/
def childCount (z : ℤ) : ℤ := if z < 0 ∨ 2147483647 < z then -1 else z

def schemaElementField (skip : ℕ → Reader Unit) (sc : PqSchemaCol) (ftype : ℕ) (fid : ℤ) :
    Reader PqSchemaCol :=
  if fid = 1 then do
    let z ← intField buf
    pure { sc with physType := z }
  else if fid = 2 then do
    let z ← intField buf
    pure { sc with typeLength := z }
  else if fid = 3 then do
    let z ← thriftZigzag buf
    pure { sc with repetition := z }
  else if fid = 4 then do
    let p ← thriftBytes buf
    pure { sc with name := p.map (List.takeWhile (· ≠ 0)) <|> sc.name }
  else if fid = 5 then do
    let z ← thriftZigzag buf
    pure { sc with numChildrenStored := z, numChildren := childCount z }
  else if fid = 6 then do
    let z ← intField buf
    pure { sc with convertedType := z }
  else if fid = 7 then do
    let z ← intField buf
    pure { sc with scale := z }
  else if fid = 8 then do
    let z ← intField buf
    pure { sc with precision := z }
  else if fid = 9 then do
    let z ← intField buf
    pure { sc with fieldId := z }
  else if fid = 10 then structLoop buf (logicalTypeField buf skip) sc
  else do
    skip ftype
    pure sc

/-- The deprecated spellings of a time and of an unsigned integer. -/
def convertedFallback (sc : PqSchemaCol) : PqSchemaCol :=
  let sc := if sc.timeUnit ≠ .none then sc
    else if sc.convertedType = 9 then { sc with timeUnit := .millis, isTimestamp := true }
    else if sc.convertedType = 10 then { sc with timeUnit := .micros, isTimestamp := true }
    else if sc.convertedType = 7 then { sc with timeUnit := .millis }
    else if sc.convertedType = 8 then { sc with timeUnit := .micros }
    else sc
  if 11 ≤ sc.convertedType ∧ sc.convertedType ≤ 14 then { sc with isUnsigned := true } else sc

/-- `parse_schema_element` -/
def parseSchemaElement (skip : ℕ → Reader Unit) : Reader PqSchemaCol := do
  let sc ← structLoop buf (schemaElementField buf skip)
    ⟨-1, 0, -1, .none, false, true, false, 0, 0, 0, 0, 0, -1, none⟩
  return convertedFallback sc

/-! ### The file -/

variable (sizes : Sizes)

/-- An array with an element for each of a list. -/
def parseList {α : Type} (size : ℕ) (parse : Reader α) : Reader (List α) := do
  let (n, etype) ← thriftListHeader buf
  allocArray size n
  elements etype false (fun as => do
    let a ← parse
    pure (as ++ [a])) n []

def rowGroupField (skip : ℕ → Reader Unit) (rg : PqRowGroup) (ftype : ℕ) (fid : ℤ) :
    Reader PqRowGroup :=
  if fid = 1 ∧ ftype = 9 then do
    let chunks ← parseList buf sizes.chunk (parseColumnChunk buf skip)
    pure { rg with chunks := chunks }
  else if fid = 3 then do
    let z ← thriftZigzag buf
    pure { rg with numRows := some z }
  else do
    skip ftype
    pure rg

def parseRowGroup (skip : ℕ → Reader Unit) : Reader PqRowGroup :=
  structLoop buf (rowGroupField buf sizes skip) ⟨none, []⟩

def fileField (skip : ℕ → Reader Unit) (pf : PqFile) (ftype : ℕ) (fid : ℤ) : Reader PqFile :=
  if fid = 2 ∧ ftype = 9 then do
    let elems ← parseList buf sizes.schemaCol (parseSchemaElement buf skip)
    pure { pf with elems := elems }
  else if fid = 4 ∧ ftype = 9 then do
    let rgs ← parseList buf sizes.rowGroup (parseRowGroup buf sizes skip)
    pure { pf with rgs := some rgs }
  else if fid = 3 ∧ (ftype = 6 ∨ ftype = 5 ∨ ftype = 4) then do
    let z ← thriftZigzag buf
    pure { pf with numRows := some z }
  else do
    skip ftype
    pure pf

end Parse

/-! ### The leaves -/

/-- The children of a group, one after the other. -/
def walkChildren {σ : Type} (walk : σ → Except Raise (Option σ)) : ℕ → σ → Except Raise (Option σ)
  | 0, s => .ok (some s)
  | n + 1, s =>
    match walk s with
    | .error e => .error e
    | .ok none => .ok none
    | .ok (some s) => walkChildren walk n s

/-- `walk_schema`: the elements behind the cursor, and the leaves so far. -/
def walkSchema : ℕ → ℕ → ℕ → ℕ → List PqSchemaCol × List PqLeafInfo →
    Except Raise (Option (List PqSchemaCol × List PqLeafInfo))
  | 0, _, _, _, _ => .error .stackDepth
  | fuel + 1, maxDef, maxRep, depth, s =>
    match s.1 with
    | [] => .ok none
    | e :: rest =>
      let d := maxDef + (if e.repetition = 1 ∨ e.repetition = 2 then 1 else 0)
      let rp := maxRep + (if e.repetition = 2 then 1 else 0)
      if e.numChildren = 0 then .ok (some (rest, s.2 ++ [⟨e, d, rp, depth⟩]))
      else walkChildren (walkSchema fuel d rp (depth + 1)) e.numChildren.toNat (rest, s.2)

/-- The root's children, when the schema is one. -/
def walkLeaves (fuel : ℕ) (pf : PqFile) : Except Raise (Option PqFile) :=
  match pf.elems with
  | [] => .ok none
  | root :: rest =>
    if pf.elems.any (fun e => e.name.isNone) ∨
      pf.elems.any (fun e => e.numChildren < 0) then .ok none
    else
      match walkChildren (walkSchema fuel 0 0 1) root.numChildren.toNat (rest, []) with
      | .error e => .error e
      | .ok none => .ok none
      | .ok (some s)
        => .ok (if s.2 = [] then none else some { pf with leaves := s.2, ntop := root.numChildren })

/-- `parse_file_metadata`: the file, when the footer is accepted, and the cursor behind it. -/
def parseFileMetadata (sizes : Sizes) (depth : ℕ) (buf : List Byte) :
    Except Raise (Option PqFile × TCReader) :=
  match structLoop buf (fileField buf sizes (thriftSkip buf depth)) ⟨[], [], 0, none, none⟩
    ⟨0, false, []⟩ with
  | .error e => .error e
  | .ok (pf, r) =>
    if r.error then .ok (none, r)
    else
      match walkLeaves depth pf with
      | .error e => .error e
      | .ok o => .ok (o, r)

/-! ### What the parse does to the cursor -/

section Calls

variable {buf : List Byte} {skip : ℕ → Reader Unit}

theorem calls_intField : Calls buf (intField buf) :=
    takes_thriftZigzag.calls.then fun _ => calls_pure _

/-- A field that is skipped leaves what was parsed. -/
theorem calls_skipped {α : Type} (hskip : ∀ ftype, Takes buf (¬ IsBool ftype) (skip ftype))
    (ftype : ℕ) (a : α) :
    Calls buf (skip ftype >>= fun _ => pure a) :=
  (hskip ftype).calls.then fun _ => calls_pure a

theorem calls_statisticsField (hskip : ∀ ftype, Takes buf (¬ IsBool ftype) (skip ftype))
    (ch : PqChunk)
    (ftype : ℕ) (fid : ℤ) : Calls buf (statisticsField buf skip ch ftype fid) := by
  have hbytes : ∀ g : Option (List Byte) → PqChunk,
    Calls buf (thriftBytes buf >>= fun p => pure (g p)) :=
    fun g => takes_thriftBytes.calls.then fun p => calls_pure (g p)
  refine Keeps.ite (hbytes _)
    (Keeps.ite (hbytes _) (Keeps.ite (hbytes _) (Keeps.ite (hbytes _) ?_)))
  exact calls_skipped hskip ftype ch

/-- The elements of a histogram are the ones that are skipped as fields. -/
theorem calls_histogram (hskip : ∀ ftype, Takes buf (¬ IsBool ftype) (skip ftype)) :
    Calls buf (histogram buf skip) := by
  refine takes_thriftListHeader.calls.then fun header => ?_
  refine Calls.then (calls_elements (fun _ => ?_) _ ()) fun _ => calls_pure _
  exact (hskip header.2).imp fun _ _ h => ⟨h.toStep, fun he => by simpa using h.took he⟩

theorem calls_sizeStatisticsField (hskip : ∀ ftype, Takes buf (¬ IsBool ftype) (skip ftype))
    (ch : PqChunk)
    (ftype : ℕ) (fid : ℤ) : Calls buf (sizeStatisticsField buf skip ch ftype fid) := by
  refine Keeps.ite ?_ (calls_skipped hskip ftype ch)
  refine (calls_histogram hskip).then fun n => ?_
  exact Keeps.ite (calls_pure _) (Keeps.ite (calls_pure _) (calls_pure _))

theorem calls_columnMetaField (hskip : ∀ ftype, Takes buf (¬ IsBool ftype) (skip ftype))
    (ch : PqChunk)
    (ftype : ℕ) (fid : ℤ) : Calls buf (columnMetaField buf skip ch ftype fid) := by
  have hlong : ∀ g : ℤ → PqChunk, Calls buf (thriftZigzag buf >>= fun z => pure (g z)) :=
    fun g => takes_thriftZigzag.calls.then fun z => calls_pure (g z)
  refine Keeps.ite (calls_intField.then fun _ => calls_pure _) ?_
  refine Keeps.ite (hlong _) (Keeps.ite (hlong _) (Keeps.ite (hlong _) (Keeps.ite (hlong _) ?_)))
  refine Keeps.ite (takes_structLoop (calls_statisticsField hskip) ch).calls ?_
  exact Keeps.ite (takes_structLoop (calls_sizeStatisticsField hskip) ch).calls
    (calls_skipped hskip ftype ch)

theorem takes_parseColumnChunk (hskip : ∀ ftype, Takes buf (¬ IsBool ftype) (skip ftype)) :
    Takes buf True (parseColumnChunk buf skip) := by
  refine takes_structLoop (fun ch ftype fid => ?_) _
  exact Keeps.ite (takes_structLoop (calls_columnMetaField hskip) _).calls
    (calls_skipped hskip ftype ch)

theorem calls_timeTypeField (hskip : ∀ ftype, Takes buf (¬ IsBool ftype) (skip ftype)) (isTs : Bool)
    (sc : PqSchemaCol) (ftype : ℕ) (fid : ℤ) :
    Calls buf (timeTypeField buf skip isTs sc ftype fid) := by
  refine Keeps.ite ?_ (Keeps.ite (calls_pure _) (calls_skipped hskip ftype sc))
  refine (takes_thriftField 0).calls.then fun u => Calls.get fun r => Keeps.ite (calls_pure _) ?_
  refine (hskip u.1).calls.then fun _ => (takes_thriftField u.2).calls.then fun _ => calls_pure _

theorem calls_logicalTypeField (hskip : ∀ ftype, Takes buf (¬ IsBool ftype) (skip ftype))
    (sc : PqSchemaCol)
    (ftype : ℕ) (fid : ℤ) : Calls buf (logicalTypeField buf skip sc ftype fid) := by
  have hint : ∀ (sc : PqSchemaCol) (ftype : ℕ) (fid : ℤ),
    Calls buf (intTypeField skip sc ftype fid) :=
    fun sc ftype fid => Keeps.ite (calls_pure _) (calls_skipped hskip ftype sc)
  refine Keeps.ite (takes_structLoop (calls_timeTypeField hskip _) sc).calls ?_
  exact Keeps.ite (takes_structLoop hint sc).calls (calls_skipped hskip ftype sc)

theorem calls_schemaElementField (hskip : ∀ ftype, Takes buf (¬ IsBool ftype) (skip ftype))
    (sc : PqSchemaCol)
    (ftype : ℕ) (fid : ℤ) : Calls buf (schemaElementField buf skip sc ftype fid) := by
  have hint : ∀ g : ℤ → PqSchemaCol, Calls buf (intField buf >>= fun z => pure (g z)) :=
    fun g => calls_intField.then fun z => calls_pure (g z)
  have hlong : ∀ g : ℤ → PqSchemaCol, Calls buf (thriftZigzag buf >>= fun z => pure (g z)) :=
    fun g => takes_thriftZigzag.calls.then fun z => calls_pure (g z)
  refine Keeps.ite (hint _) (Keeps.ite (hint _) (Keeps.ite (hlong _) (Keeps.ite ?_ ?_)))
  · exact takes_thriftBytes.calls.then fun _ => calls_pure _
  · refine Keeps.ite (hlong _)
      (Keeps.ite (hint _) (Keeps.ite (hint _) (Keeps.ite (hint _) (Keeps.ite (hint _) ?_))))
    exact Keeps.ite (takes_structLoop (calls_logicalTypeField hskip) sc).calls
      (calls_skipped hskip ftype sc)

theorem takes_parseSchemaElement (hskip : ∀ ftype, Takes buf (¬ IsBool ftype) (skip ftype)) :
    Takes buf True (parseSchemaElement buf skip) :=
  (takes_structLoop (calls_schemaElementField hskip) _).then fun _ => calls_pure _

/-- A list whose elements take a byte each. -/
theorem calls_parseList {α : Type} (size : ℕ) {parse : Reader α} (h : Takes buf True parse) :
    Calls buf (parseList buf size parse) := by
  refine takes_thriftListHeader.calls.then fun header => ?_
  have halloc : Calls buf (allocArray size header.1) :=
    Keeps.ite (keeps_throw (by simp [Endless])) (calls_pure ())
  refine halloc.then fun _ => calls_elements (fun as => ?_) _ []
  exact (h.then fun a => calls_pure (as ++ [a])).imp fun _ _ => Took.of_true (by simp)

theorem calls_fileField (hskip : ∀ ftype, Takes buf (¬ IsBool ftype) (skip ftype)) (sizes : Sizes)
    (pf : PqFile)
    (ftype : ℕ) (fid : ℤ) : Calls buf (fileField buf sizes skip pf ftype fid) := by
  have hrow : ∀ (rg : PqRowGroup) (ftype : ℕ) (fid : ℤ),
    Calls buf (rowGroupField buf sizes skip rg ftype fid) := by
    intro rg ftype fid
    refine Keeps.ite ((calls_parseList _ (takes_parseColumnChunk hskip)).then fun _ =>
      calls_pure _) ?_
    exact Keeps.ite (takes_thriftZigzag.calls.then fun _ => calls_pure _)
      (calls_skipped hskip ftype rg)
  refine Keeps.ite ((calls_parseList _ (takes_parseSchemaElement hskip)).then fun _ =>
    calls_pure _) ?_
  refine Keeps.ite ((calls_parseList _ (takes_structLoop hrow _)).then fun _ => calls_pure _) ?_
  exact Keeps.ite (takes_thriftZigzag.calls.then fun _ => calls_pure _)
    (calls_skipped hskip ftype pf)

end Calls

theorem walkChildren_ne_unfinished {σ : Type} {walk : σ → Except Raise (Option σ)}
    (h : ∀ s, walk s ≠ .error .unfinished) (n : ℕ) (s : σ) :
    walkChildren walk n s ≠ .error .unfinished := by
  induction n generalizing s with
  | zero => simp [walkChildren]
  | succ n ih =>
    rw [walkChildren]
    split
    · next e he =>
      intro heq
      cases heq
      exact h s he
    · simp
    · exact ih _

theorem walkSchema_ne_unfinished (fuel maxDef maxRep depth : ℕ)
    (s : List PqSchemaCol × List PqLeafInfo) :
    walkSchema fuel maxDef maxRep depth s ≠ .error .unfinished := by
  induction fuel generalizing maxDef maxRep depth s with
  | zero => simp [walkSchema]
  | succ fuel ih =>
    unfold walkSchema
    split
    · simp
    · next e rest _ =>
      by_cases hleaf : e.numChildren = 0
      · rw [if_pos hleaf]
        simp
      · rw [if_neg hleaf]
        exact walkChildren_ne_unfinished (ih _ _ _) _ _

theorem walkLeaves_ne_unfinished (fuel : ℕ) (pf : PqFile) :
    walkLeaves fuel pf ≠ .error .unfinished := by
  unfold walkLeaves
  split
  · simp
  · split
    · simp
    · split
      · next e he =>
        intro heq
        cases heq
        exact walkChildren_ne_unfinished (walkSchema_ne_unfinished fuel 0 0 1) _ _ he
      · simp
      · simp

/-- The parse ends, inside the buffer, and the elements walked are exact. -/
theorem parseFileMetadata_spec (sizes : Sizes) (depth : ℕ) (buf : List Byte) :
    parseFileMetadata sizes depth buf ≠ .error .unfinished ∧
      ∀ pf r, parseFileMetadata sizes depth buf = .ok (some pf, r) →
        r.pos ≤ buf.length ∧ ∀ w ∈ r.walked, w.Exact := by
  have hskip : ∀ ftype, Takes buf (¬ IsBool ftype) (thriftSkip buf depth ftype) :=
    takes_thriftSkip depth
  have hloop := takes_structLoop (calls_fileField hskip sizes) ⟨[], [], 0, none, none⟩
    ⟨0, false, []⟩
    (Nat.zero_le _)
  obtain ⟨herr, hok⟩ := hloop
  unfold parseFileMetadata
  split
  · next e he =>
    refine ⟨fun heq => ?_, fun pf r h => ?_⟩
    · cases heq
      exact herr _ he rfl
    · cases h
  · next pf r hrun =>
    obtain ⟨hinside, htook⟩ := hok pf r hrun
    split
    · refine ⟨by simp, fun pf r h => ?_⟩
      cases h
    · next hnoerr =>
      rw [Bool.not_eq_true] at hnoerr
      split
      · next e he =>
        refine ⟨fun heq => ?_, fun pf r h => ?_⟩
        · cases heq
          exact walkLeaves_ne_unfinished depth pf he
        · cases h
      · refine ⟨by simp, fun pf' r' h => ?_⟩
        cases h
        obtain ⟨ws, hws, hexact⟩ := htook.walked
        refine ⟨hinside, fun w hw => ?_⟩
        rw [hws, List.nil_append] at hw
        exact hexact hnoerr w hw

/-! ### In step -/

def StaysInside {α : Type} (buf : List Byte) (x : Reader α) : Prop :=
  ∀ r, r.pos ≤ buf.length → ∀ a t, x r = .ok (a, t) → t.pos ≤ buf.length

theorem Takes.staysInside {α : Type} {buf : List Byte} {c : Prop} {x : Reader α}
    (h : Takes buf c x) :
    StaysInside buf x :=
  fun r hr a t hrun => ((h r hr).2 a t hrun).1

/-- **The compact protocol stays in step**: a skip takes exactly its value, what the writer put is
read back, no call leaves the buffer, and in a footer that is accepted every element walked took a
byte if and only if none was a boolean of a histogram. -/
theorem thrift_in_step (buf : List Byte) :
    (∀ depth v bs, Encodes depth v bs → Reads buf (thriftSkip buf depth v.type) bs ()) ∧
    (∀ depth fields bs, Puts depth (.struct fields) bs →
      Reads buf (readValue buf depth 12) bs (.struct fields)) ∧
    (StaysInside buf (thriftVarint buf) ∧ StaysInside buf (thriftZigzag buf) ∧
      StaysInside buf (thriftBytes buf) ∧ (∀ lastId, StaysInside buf (thriftField buf lastId)) ∧
        (∀ depth ftype, StaysInside buf (thriftSkip buf depth ftype)) ∧
          StaysInside buf (thriftListHeader buf)) ∧
    ∀ sizes depth, parseFileMetadata sizes depth buf ≠ .error .unfinished ∧
      ∀ pf r, parseFileMetadata sizes depth buf = .ok (some pf, r) →
        ((∀ w ∈ r.walked, w.before < w.after) ↔ ∀ w ∈ r.walked, w.asField = true →
          ¬ IsBool w.etype) := by
  refine ⟨fun depth v bs h => reads_thriftSkip h, fun depth fields bs h => reads_readValue h,
    ⟨?_, ?_, ?_, ?_, ?_, ?_⟩, ?_⟩
  · exact takes_thriftVarint.staysInside
  · exact takes_thriftZigzag.staysInside
  · exact takes_thriftBytes.staysInside
  · exact fun lastId => (takes_thriftField lastId).staysInside
  · exact fun depth ftype => (takes_thriftSkip depth ftype).staysInside
  · exact takes_thriftListHeader.staysInside
  · intro sizes depth
    obtain ⟨hends, hspec⟩ := parseFileMetadata_spec sizes depth buf
    refine ⟨hends, fun pf r hrun => ?_⟩
    obtain ⟨-, hexact⟩ := hspec pf r hrun
    constructor
    · intro h w hw hfield hbool
      exact (hexact w hw).mp (h w hw) ⟨hfield, hbool⟩
    · intro h w hw
      exact (hexact w hw).mpr fun hboth => h w hw hboth.1 hboth.2

/-- A footer with one row group, one column and a histogram of three booleans. -/
def boolFooter : List Byte :=
  [0x29, 0x2C, 0x48, 1, 114, 0x15, 2, 0, 0x48, 1, 97, 0, 0x29, 0x1C, 0x19, 0x1C, 0x3C, 0x0C, 32,
    0x29, 0x31, 0,
    0, 0, 0, 0]

/-- A struct with one boolean. -/
theorem thrift_in_step_bool : Reads [0x11, 0x00] (thriftSkip [0x11, 0x00] 2 12) [0x11, 0x00] () ∧
      Reads [0x11, 0x00] (readValue [0x11, 0x00] 2 12) [0x11, 0x00]
        (.struct [(1, .bool true)]) := by
  have hput : Fields (fun lastId id type hb => IsInt16 id ∧ hb = putField lastId id type) (Puts 1) 0
      [(1, .bool true)] ([0x11] ++ ([] ++ putStop)) :=
    .cons ⟨⟨by decide, by decide⟩, rfl⟩ rfl .stop
  have henc : Fields (fun lastId id type hb => IsInt16 id ∧ FieldHeader lastId id type hb)
    (Encodes 1) 0
      [(1, .bool true)] ([0x11] ++ ([] ++ putStop)) :=
    .cons ⟨⟨by decide, by decide⟩, .short (by decide) (by decide) rfl⟩ rfl .stop
  exact ⟨(thrift_in_step _).1 2 (.struct [(1, .bool true)]) _ henc,
    (thrift_in_step _).2.1 2 _ _ hput⟩

/-- Its histogram is walked without a byte. -/
theorem boolFooter_walks_nothing :
    ¬ ∀ sizes depth buf pf r, parseFileMetadata sizes depth buf = .ok (some pf, r) →
      ∀ w ∈ r.walked, w.before < w.after := by
  intro h
  have hrun : (parseFileMetadata ⟨1, 1, 1⟩ 9 boolFooter).toOption.map
      (fun p => p.1.isSome && p.2.walked.any fun w => w.before == w.after) = some true := by decide
  cases hparse : parseFileMetadata ⟨1, 1, 1⟩ 9 boolFooter with
  | error e =>
    rw [hparse] at hrun
    cases hrun
  | ok p =>
    obtain ⟨o, r⟩ := p
    rw [hparse] at hrun
    cases o with
    | none => cases hrun
    | some pf =>
      simp only [Except.toOption, Option.map_some, Option.isSome_some, Bool.true_and,
        Option.some.injEq,
        List.any_eq_true, beq_iff_eq] at hrun
      obtain ⟨w, hw, heq⟩ := hrun
      exact Nat.ne_of_lt (h _ _ _ pf r hparse w hw) heq

end PgColumnar.Thrift
