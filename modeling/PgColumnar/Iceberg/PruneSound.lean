import PgColumnar.Iceberg.Transform

/-!
# What rules out a file

A data file whose manifest entry is written correctly is ruled out by a bound, a bucket, an
interval, a day of a date or a partition value only if no row that the scan would return from it
satisfies every clause.  Bounds and buckets of decimals are an exception: a column of integers may
read a decimal leaf, whose bounds and buckets the code takes for those of an integer.

## Main definitions

* `Correct` — a scan and a file that mean what they say.
* `Misread` — bounds or buckets of a decimal taken for those of an integer.

## Main results

* `metric_sound`, `bucket_sound`, `trunc_sound`, `day_sound`, `part_sound` — what each rule loses:
  no row, those of decimals apart.
-/

namespace PgColumnar.Iceberg

open Bytes Parquet Zone List Int
open Option (any_some bind_eq_some_iff elim_some ite_none_left_eq_some map_eq_some_iff)

/-! ### What is assumed -/

/-- The number that a comparison of integers, booleans, dates or timestamps is about. -/
def number : Datum → Option ℤ
  | .int v => some v
  | .bool b => some (if b then 1 else 0)
  | _ => none

def isTextType (typid : TypeOid) : Bool := decide (typid = .text ∨ typid = .varchar)

/-- Types whose values are compared by their numbers. -/
def SameLine (t u : TypeOid) : Prop :=
  (isIntType t = true ∧ isIntType u = true) ∨
    t = u ∧ (t = .bool ∨ t = .date ∨ t = .timestamp ∨ t = .timestamptz)

/-- The btree operators of the catalog.  The families of the integers and of the booleans hold no
other types, and a text is compared with nothing else that the reader reads. -/
structure BtreeOperators (cat : Catalog) : Prop where
  byNumber : ∀ opno s f st, (s, f) ∈ cat.opInterpretation opno → strategyOf s = some st → ∀ t u,
    cat.operandTypes opno = (t, u) → SameLine t u → ∀ a c : Datum, a.HasType t → c.HasType u →
    ∀ m n, number a = some m → number c = some n → (cat.operator opno a c ↔ st.holds (m - n))
  family : ∀ opno, cat.opInterpretation opno ≠ [] → ∀ t u, cat.operandTypes opno = (t, u) →
    isIntType t = isIntType u ∧ (t = .bool ↔ u = .bool)
  text : ∀ opno, cat.opInterpretation opno ≠ [] → ∀ t u,
    cat.operandTypes opno = (t, u) ∨ cat.operandTypes opno = (u, t) → isTextType u = true →
      isTextType t = true ∨ ∃ oid, t = .other oid

/-- A clause that is true and not volatile depends on its attributes; a comparison by a btree
operator is strict, typed as the parser types it, and under a deterministic collation equal texts
have equal bytes. -/
structure LawfulQuals (scan : IceScan) : Prop where
  attrs : ∀ q ∈ scan.quals, q.isVolatile = false → (∀ attno ∈ q.attrs, 1 ≤ attno) →
    ∀ row row' : Row,
    row.length = scan.cols.length → row'.length = scan.cols.length →
    (∀ attno ∈ q.attrs, row[(attno - 1).toNat]? = row'[(attno - 1).toNat]?) →
      q.eval row = q.eval row'
  typed : ∀ q ∈ scan.quals, ∀ opno args attno con varLeft, q.expr = .opExpr opno args →
    varAndConst args = some (attno, con, varLeft) → ∀ col, columnAt scan.cols attno = some col →
      Typed scan.cat opno col.att.typid con varLeft
  strict : ∀ q ∈ scan.quals, ∀ opno args attno con varLeft, q.expr = .opExpr opno args →
    varAndConst args = some (attno, con, varLeft) → scan.cat.opInterpretation opno ≠ [] →
      1 ≤ attno →
    ∀ row, q.eval row = true → ∃ d, row[(attno - 1).toNat]? = some (some d) ∧
      ClauseHolds scan.cat opno con varLeft d
  textEq : ∀ q ∈ scan.quals, ∀ opno args attno con varLeft, q.expr = .opExpr opno args →
    varAndConst args = some (attno, con, varLeft) → q.deterministic = true →
    (∃ f, (3, f) ∈ scan.cat.opInterpretation opno) → isTextType con.consttype = true →
      ∀ row, q.eval row = true →
      ∀ bytes, row[(attno - 1).toNat]? = some (some (.text bytes)) → con.constvalue = .text bytes
  -- a date or a timestamp has at most 64 bits
  constRange : ∀ q ∈ scan.quals, ∀ attno con st, varOpConst scan.cat q = some (attno, con, st) →
    ∀ v, temporalNumber con.constvalue = some v → -2 ^ 63 ≤ v ∧ v < 2 ^ 63

/-- The leaves of dates and of timestamps have the types of the fields, and a bucket of time is one
of a date or of a timestamp. -/
structure Conforms (scan : IceScan) (f : DataFile) (nm : NameMapping) : Prop where
  timestamp : ∀ col ∈ scan.cols, ∀ id tz, col.fieldId = some id → col.fieldType = .timestamp tz →
    ∀ j l, carriers f nm id = [j] → f.leaves[j]? = some l →
      (l.info.sc.physType = .int64 ∧ l.info.sc.isTimestamp = true ∧ l.info.sc.adjustedUtc = tz) ∨
        l.info.sc.physType = .int96 ∧ l.info.sc.isTimestamp = false ∧ tz = true
  date : ∀ col ∈ scan.cols, ∀ id, col.fieldId = some id → col.fieldType = .date →
    ∀ j l, carriers f nm id = [j] →
    f.leaves[j]? = some l → l.info.sc.physType = .int32
  temporal : ∀ field ∈ scan.specFields, ∀ kind, field.transform = .temporal kind →
    ∀ col ∈ scan.cols,
    col.fieldId = some field.sourceId → col.fieldType ≠ .other

section

variable (coercionFunction : TypeOid → Bool) (session : Session) (timestamp2tm : ℤ → Option (ℤ × ℤ))
  (monthOf : ℤ → ℤ)

/-- What is assumed of a scan and of a data file. -/
structure Correct (scan : IceScan) (f : DataFile) (nm : NameMapping) (ids : List ℕ)
    (stored : ℕ → List (Option Stored)) (file : IceFileMeta) : Prop where
  ids : ColumnIds scan.cols ids
  decodes : Decodes session f stored
  written : Written monthOf f nm stored scan.specs file
  conforms : Conforms scan f nm
  quals : LawfulQuals scan
  operators : BtreeOperators scan.cat
  calendar : Calendar timestamp2tm monthOf
  -- these types have no length coercion
  lengthless : ∀ t, isIntType t = true ∨ t = .bool ∨ t = .date → coercionFunction t = false

end

/-- The file has the field as a decimal. -/
def IsDecimal (f : DataFile) (nm : NameMapping) (id : ℕ) : Prop :=
  ∃ j l, carriers f nm id = [j] ∧ f.leaves[j]? = some l ∧ l.info.sc.convertedType = ctDecimal

/-- The bounds of a decimal, read as those of an integer, or its bucket, taken for that of an
integer or of a text, do not go with the constant of a clause. -/
def Misread (scan : IceScan) (f : DataFile) (nm : NameMapping) (file : IceFileMeta) : Prop :=
  (∃ mq ∈ iceFdwMetricQuals scan.cat scan.cols scan.quals, IsDecimal f nm mq.fieldid ∧
    metricExcludes file mq = true) ∨
  file.specId = scan.specid ∧
    ∃ bq ∈ iceFdwBucketQuals scan.cat scan.cols (bucketMap scan.specFields scan.cols) scan.quals,
      (∃ field ∈ scan.specFields[bq.pos]?, IsDecimal f nm field.sourceId) ∧
        bucketExcludes file bq = true

variable {coercionFunction : TypeOid → Bool} {coerceFn : TypeOid → ℤ → Datum → Option Datum}
  {session : Session}
  {timestamp2tm : ℤ → Option (ℤ × ℤ)} {monthOf : ℤ → ℤ} {verifyMbstr : List Byte → Bool}
  {scan : IceScan} {f : DataFile} {nm : NameMapping} {ids : List ℕ}
  {stored : ℕ → List (Option Stored)}
  {file : IceFileMeta} {row : Row}

/-! ### Columns and fields -/

variable {cols : List Column} {id : ℕ}

theorem fieldColumn_eq_some {a : ℕ} (h : fieldColumn cols id = some a) :
    ∃ col, cols[a]? = some col ∧ col.att.dropped = false ∧ col.fieldId = some id := by
  obtain ⟨hlt, hp, -⟩ := findIdx?_eq_some_iff_getElem.mp h
  rw [Bool.and_eq_true, Bool.not_eq_true', decide_eq_true_iff] at hp
  exact ⟨cols[a], getElem?_eq_getElem hlt, hp⟩

variable {pos : ℕ}

theorem mem_fieldMap {β : Type} {sel : Transform → Option β} {fields : List PartField}
    {a : ℕ} {b : β} (h : (pos, a, b) ∈ fieldMap sel fields cols) :
    ∃ field, fields[pos]? = some field ∧
      sel field.transform = some b ∧ fieldColumn cols field.sourceId = some a := by
  obtain ⟨⟨field, k⟩, hmem, hsome⟩ := mem_filterMap.mp h
  obtain ⟨b', hb, hmap⟩ := bind_eq_some_iff.mp hsome
  obtain ⟨a', ha, heq⟩ := map_eq_some_iff.mp hmap
  obtain ⟨rfl, rfl, rfl⟩ : k = pos ∧ a' = a ∧ b' = b := by simpa using heq
  exact ⟨field, mem_zipIdx_iff_getElem?.mp hmem, hb, ha⟩

variable {attno : ℤ}

theorem columnAt_succ {a : ℕ} (h : (a : ℤ) + 1 = attno) :
    columnAt cols attno = cols[a]? ∧ (attno - 1).toNat = a ∧ 1 ≤ attno := by
  have htoNat : (attno - 1).toNat = a := by omega
  refine ⟨?_, htoNat, by omega⟩
  rw [columnAt, if_neg (by omega), htoNat]

variable {col : Column}

theorem columnAt_eq_some (h : columnAt cols attno = some col) :
    1 ≤ attno ∧ cols[(attno - 1).toNat]? = some col := by
  unfold columnAt at h
  split_ifs at h
  exact ⟨by omega, h⟩

/-- Every column of the row has a value of its field. -/
structure RowReads (coercionFunction : TypeOid → Bool)
    (coerceFn : TypeOid → ℤ → Datum → Option Datum) (session : Session)
    (scan : IceScan) (f : DataFile) (nm : NameMapping) (stored : ℕ → List (Option Stored))
    (row : Row) : Prop where
  length : row.length = scan.cols.length
  value : ∀ (k : ℕ) col id, scan.cols[k]? = some col → col.att.dropped = false →
    col.fieldId = some id →
    ∃ value, row[k]? = some value ∧
      ReadsFrom coercionFunction coerceFn session f nm stored col id value

/-- Where a value that is not null comes from. -/
structure Source (coercionFunction : TypeOid → Bool) (coerceFn : TypeOid → ℤ → Datum → Option Datum)
    (session : Session)
    (f : DataFile) (nm : NameMapping) (stored : ℕ → List (Option Stored)) (col : Column) (id : ℕ)
    (d : Datum)
    (j : ℕ) (l : FileLeaf) (imp : ImpLeaf) (x : Stored) (d₀ : Datum) : Prop where
  carriers : carriers f nm id = [j]
  leaf : f.leaves[j]? = some l
  bind : bindFieldId coercionFunction col.att id l.info = .ok imp
  mem : some (l.info.sc, x) ∈ sourceValues f nm stored id
  read : readStored session imp.plan x = some d₀
  take : pqTakeValue coerceFn imp.plan d₀ = some d

variable {d : Datum}

theorem exists_source
    (h : ReadsFrom coercionFunction coerceFn session f nm stored col id (some d)) :
    ∃ j l imp x d₀, Source coercionFunction coerceFn session f nm stored col id d j l imp x d₀ := by
  rcases h with ⟨-, hnone⟩ | ⟨t, hbinds, ⟨hnone, -⟩ | ⟨x, d₀, d', hx, hread, htake, heq⟩⟩
  · cases hnone
  · cases hnone
  · cases heq
    obtain ⟨l, hleaf, hbind⟩ := hbinds.imp
    refine ⟨t.leaf, l, t.imp, x, d₀, hbinds.carriers, hleaf, hbind, ?_, hread, htake⟩
    rw [sourceValues, hbinds.carriers]
    simp only [hleaf, elim_some]
    exact mem_map.mpr ⟨some x, hx, rfl⟩

theorem none_mem_sourceValues
    (h : ReadsFrom coercionFunction coerceFn session f nm stored col id none) :
    none ∈ sourceValues f nm stored id := by
  rcases h with ⟨hnone, -⟩ | ⟨t, hbinds, ⟨-, hnull⟩ | ⟨x, d₀, d', -, -, -, heq⟩⟩
  · simp [sourceValues, hnone]
  · obtain ⟨l, hleaf, -⟩ := hbinds.imp
    rw [sourceValues, hbinds.carriers]
    simp only [hleaf, elim_some]
    exact mem_map.mpr ⟨none, hnull, rfl⟩
  · cases heq

variable {field : PartField}

/-- The default spec is the one by which a cell is read. -/
theorem Correct.cell
    (h : Correct coercionFunction session timestamp2tm monthOf scan f nm ids stored file)
    (hspec : file.specId = scan.specid) {k : ℕ} {cell : PartCell}
    (hfield : scan.specFields[k]? = some field) (hcell : file.cells[k]? = some cell) :
    ∀ v ∈ sourceValues f nm stored field.sourceId, CellHolds monthOf field.transform cell v := by
  unfold IceScan.specFields at hfield
  cases hfind : scan.specs.find? fun s => s.1 = scan.specid with
  | none => simp [hfind] at hfield
  | some s =>
    exact h.written.cells s (hspec ▸ hfind) k field cell (by simpa [hfind] using hfield) hcell

theorem usableCell_eq_some {v : ℤ} (h : usableCell file pos = some v) :
    ∃ cell, file.cells[pos]? = some cell ∧ cell.isBytes = false ∧ cell.comparable = true ∧
      cell.ival = v := by
  obtain ⟨cell, hcell, hsome⟩ := bind_eq_some_iff.mp h
  obtain ⟨hno, hsome⟩ := ite_none_left_eq_some.mp hsome
  simp only [Bool.or_eq_true, Bool.not_eq_true', not_or, Bool.not_eq_true, Bool.not_eq_false] at hno
  exact ⟨cell, hcell, hno.1.2, hno.2, Option.some.inj hsome⟩

/-- What a usable cell says of a stored value. -/
theorem Correct.usable
    (h : Correct coercionFunction session timestamp2tm monthOf scan f nm ids stored file)
    (hspec : file.specId = scan.specid) {v : ℤ} {sc : PqSchemaCol} {x : Stored}
    (hfield : scan.specFields[pos]? = some field) (hcell : usableCell file pos = some v)
    (hx : some (sc, x) ∈ sourceValues f nm stored field.sourceId) :
    field.transform.Holds monthOf sc x v := by
  obtain ⟨cell, hget, hbytes, hcomp, rfl⟩ := usableCell_eq_some hcell
  have hholds := (h.cell hspec hfield hget _ hx).2 hcomp
  rw [hbytes, if_neg Bool.false_ne_true] at hholds
  exact hholds

/-! ### Clauses -/

variable {st : Strategy}

theorem firstInterpretation_mem {cat : Catalog} {opno fam : ℕ}
    (h : firstInterpretation cat opno = some (st, fam)) :
    ∃ s, (s, fam) ∈ cat.opInterpretation opno ∧ strategyOf s = some st := by
  obtain ⟨⟨s, fam'⟩, hmem, hsome⟩ := exists_of_findSome?_eq_some h
  obtain ⟨st', hst, heq⟩ := map_eq_some_iff.mp hsome
  cases heq
  exact ⟨s, hmem, hst⟩

/-- What a true comparison of a column with a constant says. -/
structure Compared (scan : IceScan) (col : Column) (con : Const) (st : Strategy)
    (value : Option (Option Datum)) (d : Datum) :
    Prop where
  value : value = some (some d)
  notNull : con.constisnull = false
  typed : con.constvalue.HasType con.consttype
  int : isIntType col.att.typid = isIntType con.consttype
  bool : col.att.typid = .bool ↔ con.consttype = .bool
  holds : SameLine col.att.typid con.consttype → d.HasType col.att.typid →
    ∀ m n, number d = some m →
    number con.constvalue = some n → st.holds (m - n)

theorem sameLine_symm {t u : TypeOid} (h : SameLine t u) : SameLine u t := by
  rcases h with ⟨ht, hu⟩ | ⟨rfl, h⟩
  · exact .inl ⟨hu, ht⟩
  · exact .inr ⟨rfl, h⟩

variable {con : Const}

theorem compared_of_operator (h : BtreeOperators scan.cat) {opno s fam : ℕ}
    (hmem : (s, fam) ∈ scan.cat.opInterpretation opno) (hst : strategyOf s = some st)
    {varLeft : Bool} (htyped : Typed scan.cat opno col.att.typid con varLeft)
    {value : Option (Option Datum)}
    (hvalue : value = some (some d)) (hclause : ClauseHolds scan.cat opno con varLeft d) :
    Compared scan col con (if varLeft then st else flipStrategy st) value d := by
  obtain ⟨htypes, hcon⟩ := htyped
  obtain ⟨hnull, hop⟩ := hclause
  have hne : scan.cat.opInterpretation opno ≠ [] := ne_nil_of_mem hmem
  cases varLeft with
  | true =>
    rw [if_pos rfl] at htypes hop ⊢
    obtain ⟨hint, hbool⟩ := h.family opno hne _ _ htypes
    refine ⟨hvalue, hnull, hcon hnull, hint, hbool, fun hline hd m n hm hn => ?_⟩
    exact (h.byNumber opno s fam st hmem hst _ _ htypes hline d _ hd (hcon hnull) m n hm hn).mp hop
  | false =>
    rw [if_neg Bool.false_ne_true] at htypes hop ⊢
    obtain ⟨hint, hbool⟩ := h.family opno hne _ _ htypes
    refine ⟨hvalue, hnull, hcon hnull, hint.symm, hbool.symm, fun hline hd m n hm hn => ?_⟩
    have hholds := (h.byNumber opno s fam st hmem hst _ _ htypes (sameLine_symm hline) _ d
      (hcon hnull) hd n m hn hm).mp hop
    rwa [flipStrategy_holds, neg_sub]

theorem compared_of_varOpConst
    (h : Correct coercionFunction session timestamp2tm monthOf scan f nm ids stored file)
    {q : ScanQual} (hq : q ∈ scan.quals)
    (hclause : varOpConst scan.cat q = some (attno, con, st))
    (hcol : columnAt scan.cols attno = some col)
    (hrow : q.eval row = true) : ∃ d, Compared scan col con st row[(attno - 1).toNat]? d := by
  unfold varOpConst at hclause
  split at hclause
  · cases hclause
  · next opno args hexpr =>
    split at hclause
    · cases hclause
    · next attno' con' varLeft hargs =>
      split at hclause
      · cases hclause
      · split at hclause
        · cases hclause
        · next st' fam hfirst =>
          cases hclause
          obtain ⟨s, hmem, hst⟩ := firstInterpretation_mem hfirst
          obtain ⟨d, hvalue, hholds⟩ := h.quals.strict q hq opno args _ _ varLeft hexpr hargs
            (ne_nil_of_mem hmem)
            (columnAt_eq_some hcol).1 row hrow
          exact ⟨d, compared_of_operator h.operators hmem hst
            (h.quals.typed q hq opno args _ _ varLeft hexpr hargs col hcol) hvalue hholds⟩

/-! ### Bounds -/

theorem iceFdwMetricExcludes_sound {c lo hi n : ℤ} (h : iceFdwMetricExcludes st c lo hi = true)
    (hlo : lo ≤ n) (hhi : n ≤ hi) : ¬ st.holds (n - c) := by
  cases st <;> simp only [iceFdwMetricExcludes, Bool.or_eq_true, decide_eq_true_eq] at h <;>
    simp only [Strategy.holds] <;> omega

theorem number_of_constInt {c : ℤ} (h : iceFdwConstInt con = some c) :
    number con.constvalue = some c := by
  unfold iceFdwConstInt at h
  split_ifs at h
  split at h <;> simp_all [number]

/-- The number of a value of integers or booleans is the one that is stored. -/
theorem number_of_source (hless : ∀ t, isIntType t = true ∨ t = .bool ∨ t = .date →
      coercionFunction t = false) {j : ℕ} {l : FileLeaf} {imp : ImpLeaf} {x : Stored} {d₀ : Datum}
    (hsource : Source coercionFunction coerceFn session f nm stored col id d j l imp x d₀)
    (htype : isIntType col.att.typid = true ∨ col.att.typid = .bool) :
    d.HasType col.att.typid ∧ ∃ n, storedInt l.info.sc x = some n ∧ number d = some n := by
  have hd := take_of_bindFieldId hsource.bind (.inr (hless _ (htype.imp_right .inl))) hsource.take
  subst hd
  rcases htype with hint | hbool
  · obtain ⟨n, hn, rfl, -⟩ := read_int hsource.bind hint hsource.read
    refine ⟨?_, n, hn, rfl⟩
    rcases of_decide_eq_true hint with ht | ht | ht <;> rw [ht] <;> simp [Datum.HasType]
  · obtain ⟨b, hb, rfl⟩ := read_bool hsource.bind hbool hsource.read
    exact ⟨hbool, _, hb, rfl⟩

section Rules

variable (h : Correct coercionFunction session timestamp2tm monthOf scan f nm ids stored file)
  (hreads : RowReads coercionFunction coerceFn session scan f nm stored row)
  (hsat : ∀ q ∈ scan.quals, q.eval row = true)

include h hreads

variable {col : Column} {con : Const} {d : Datum}

omit h in
/-- Where the value of a compared column comes from. -/
theorem source_of_compared {k : ℕ} {id : ℕ} {st : Strategy}
    (hk : scan.cols[k]? = some col) (hlive : col.att.dropped = false) (hid : col.fieldId = some id)
    (hcmp : Compared scan col con st row[k]? d) :
    ∃ j l imp x d₀, Source coercionFunction coerceFn session f nm stored col id d j l imp x d₀ := by
  obtain ⟨value, hvalue, hfrom⟩ := hreads.value k col id hk hlive hid
  have heq := hcmp.value
  rw [hvalue] at heq
  rw [Option.some.inj heq] at hfrom
  exact exists_source hfrom

include hsat

/-- **Bounds** rule out a file only if no row satisfies the clause, unless they are those of a
decimal. -/
theorem metric_sound {mq : IceMetricQual}
    (hmq : mq ∈ iceFdwMetricQuals scan.cat scan.cols scan.quals)
    (hno : ¬ IsDecimal f nm mq.fieldid) : metricExcludes file mq = false := by
  obtain ⟨q, hq, hsome⟩ := mem_filterMap.mp hmq
  obtain ⟨⟨attno, con, st⟩, hclause, hsome⟩ := bind_eq_some_iff.mp hsome
  obtain ⟨col, hcol, hsome⟩ := bind_eq_some_iff.mp hsome
  obtain ⟨id, hfid, hsome⟩ := bind_eq_some_iff.mp hsome
  obtain ⟨htype, hsome⟩ := ite_none_left_eq_some.mp hsome
  obtain ⟨c, hc, rfl⟩ := map_eq_some_iff.mp hsome
  have htype' : isIntType col.att.typid = true ∨ col.att.typid = .bool := by
    by_cases hint : isIntType col.att.typid = true
    · exact .inl hint
    · exact .inr (by_contra fun hb => htype ⟨by simpa using hint, hb⟩)
  obtain ⟨d, hcmp⟩ := compared_of_varOpConst h hq hclause hcol (hsat q hq)
  obtain ⟨-, hk⟩ := columnAt_eq_some hcol
  unfold columnFieldId at hfid
  obtain ⟨hlive, hfid⟩ := ite_none_left_eq_some.mp hfid
  have hid : col.fieldId = some id := (Option.filter_eq_some_iff.mp hfid).1
  obtain ⟨j, l, imp, x, d₀, hsource⟩ :=
    source_of_compared hreads hk (Bool.not_eq_true _ ▸ hlive) hid hcmp
  obtain ⟨hd, n, hn, hnum⟩ := number_of_source h.lengthless hsource htype'
  have hline : SameLine col.att.typid con.consttype := by
    rcases htype' with hint | hbool
    · exact .inl ⟨hint, hcmp.int ▸ hint⟩
    · exact .inr ⟨hbool.trans (hcmp.bool.mp hbool).symm, .inl hbool⟩
  have hholds := hcmp.holds hline hd n c hnum (number_of_constInt hc)
  have hdec : l.info.sc.convertedType ≠ ctDecimal :=
    fun heq => hno ⟨j, l, hsource.carriers, hsource.leaf, heq⟩
  unfold metricExcludes
  split
  · next lo hi hlo hhi =>
    obtain ⟨lb, hlb, hlo'⟩ := bind_eq_some_iff.mp hlo
    obtain ⟨ub, hub, hhi'⟩ := bind_eq_some_iff.mp hhi
    obtain ⟨⟨id', lb'⟩, hfind, hsnd⟩ := bind_eq_some_iff.mp hlb
    obtain ⟨⟨id'', ub'⟩, hfind', hsnd'⟩ := bind_eq_some_iff.mp hub
    have hideq := find?_some hfind
    have hideq' := find?_some hfind'
    simp only [decide_eq_true_eq] at hideq hideq' hsnd hsnd'
    subst hideq hideq' hsnd hsnd'
    have hlow := h.written.lower _ _ (mem_of_find?_eq_some hfind) _ x hsource.mem hdec n hn lo
      (serializes_of_boundInt hlo')
    have hhigh := h.written.upper _ _ (mem_of_find?_eq_some hfind') _ x hsource.mem hdec n hn hi
      (serializes_of_boundInt hhi')
    split
    · rfl
    · by_contra hex
      exact iceFdwMetricExcludes_sound (by simpa using hex) hlow hhigh hholds
  · rfl

/-! ### Cells -/

omit h hsat in
/-- A clause on the column of a partition field: the field, and where the column's value comes
from. -/
theorem source_of_field {β : Type} {sel : Transform → Option β} {pos a : ℕ} {b : β}
    (hmap : (pos, a, b) ∈ fieldMap sel scan.specFields scan.cols) {attno : ℤ}
    (hattno : (a : ℤ) + 1 = attno) {st : Strategy} (hcol : columnAt scan.cols attno = some col)
    (hcmp : Compared scan col con st row[(attno - 1).toNat]? d) :
    ∃ field j l imp x d₀, scan.specFields[pos]? = some field ∧ sel field.transform = some b ∧
      scan.cols[a]? = some col ∧ col.fieldId = some field.sourceId ∧ row[a]? = some (some d) ∧
      Source coercionFunction coerceFn session f nm stored col field.sourceId d j l imp x d₀ := by
  obtain ⟨hcolumn, htoNat, -⟩ := @columnAt_succ scan.cols attno a hattno
  obtain ⟨field, hfield, hsel, hfc⟩ := mem_fieldMap hmap
  obtain ⟨col', hk, hlive, hid⟩ := fieldColumn_eq_some hfc
  rw [hcolumn, hk] at hcol
  cases hcol
  rw [htoNat] at hcmp
  obtain ⟨j, l, imp, x, d₀, hsource⟩ := source_of_compared hreads hk hlive hid hcmp
  exact ⟨field, j, l, imp, x, d₀, hfield, hsel, hk, hid, hcmp.value, hsource⟩

omit h hreads hsat in
/-- The interval of a number whose start passes the guard against overflow. -/
theorem interval_of_bmod {w n v : ℤ} (hpos : 0 < w) (hw : w < 2 ^ 31)
    (hn : -2 ^ 63 ≤ n ∧ n < 2 ^ 63)
    (hv : v = (w * (n / w)).bmod (2 ^ 64)) (hguard : v ≤ 2 ^ 63 - 1 - w) : v ≤ n ∧
      n ≤ v + w - 1 := by
  have hdiv := mul_ediv_add_emod n w
  have hmod := emod_nonneg n hpos.ne'
  have hlt := emod_lt_of_pos n hpos
  have hnowrap : v = w * (n / w) := by
    by_contra hne
    have hlow : w * (n / w) < -2 ^ 63 := by
      by_contra hge
      rw [bmod_eq_of_le (by omega) (by omega)] at hv
      exact hne hv
    -- an interval that begins below the least number wraps above the guard
    have hwrap : (w * (n / w)).bmod (2 ^ 64) = w * (n / w) + 2 ^ 64 := by
      have hshift := add_bmod_right (w * (n / w)) (2 ^ 64)
      rw [← hshift]
      exact bmod_eq_of_le (by push_cast; omega) (by push_cast; omega)
    omega
  omega

/-- **Intervals** rule out a file only if no row satisfies the clause. -/
theorem trunc_sound (hspec : file.specId = scan.specid) {tq : IceTruncQual}
    (htq : tq ∈ iceFdwTruncQuals scan.cat scan.cols
      (truncateMap scan.specFields scan.cols) scan.quals) :
    truncExcludes file tq = false := by
  obtain ⟨q, hq, hmem⟩ := mem_flatMap.mp htq
  split at hmem
  · cases hmem
  · next attno con st hclause =>
    split at hmem
    · next col c hcol hc =>
      split at hmem
      · cases hmem
      · next hint =>
        rw [Bool.not_eq_false] at hint
        obtain ⟨⟨pos, a, w⟩, hmap, hsome⟩ := mem_filterMap.mp hmem
        dsimp only at hsome
        obtain ⟨hattno, hsome⟩ := ite_none_left_eq_some.mp hsome
        rw [not_not] at hattno
        cases hsome
        obtain ⟨d, hcmp⟩ := compared_of_varOpConst h hq hclause hcol (hsat q hq)
        obtain ⟨field, j, l, imp, x, d₀, hfield, hsel, hk, hid, -, hsource⟩ :=
          source_of_field hreads hmap hattno hcol hcmp
        obtain ⟨w', htr, hw⟩ : ∃ w' : CInt, field.transform = .truncate w' ∧ 0 < w'.1 ∧
          w'.1 = w := by
          split at hsel
          · next w' htr =>
            split_ifs at hsel
            exact ⟨w', htr, by omega, Option.some.inj hsel⟩
          · cases hsel
        obtain ⟨hpos, rfl⟩ := hw
        have hd := take_of_bindFieldId hsource.bind (.inr (h.lengthless _ (.inl hint))) hsource.take
        subst hd
        obtain ⟨n, hn, rfl, hrange⟩ := read_int hsource.bind hint hsource.read
        have hbounds : -2 ^ 63 ≤ n ∧ n < 2 ^ 63 := by
          unfold intRange at hrange
          split at hrange <;> omega
        have htyped : Datum.HasType (.int n) col.att.typid := by
          rcases of_decide_eq_true hint with ht | ht | ht <;> rw [ht] <;> simp [Datum.HasType]
        have hholds := hcmp.holds (.inl ⟨hint, hcmp.int ▸ hint⟩) htyped n c rfl
          (number_of_constInt hc)
        refine (Option.any_eq_false _ _).mpr fun v hcell => ?_
        have hv := h.usable hspec hfield hcell hsource.mem
        rw [htr] at hv
        have hv := hv n hn
        split
        · rfl
        · next hguard =>
          obtain ⟨hlow, hhigh⟩ := interval_of_bmod hpos w'.2.2 hbounds hv (not_lt.mp hguard)
          exact Bool.eq_false_iff.mpr fun hex =>
            iceFdwMetricExcludes_sound hex hlow hhigh hholds
    · cases hmem

/-- **Days** of dates rule out a file only if no row satisfies the clause. -/
theorem day_sound (hspec : file.specId = scan.specid) {dq : IceDayQual}
    (hdq : dq ∈ iceFdwDayQuals scan.cat scan.cols (dayMap scan.specFields scan.cols) scan.quals) :
    dayExcludes file dq = false := by
  obtain ⟨q, hq, hmem⟩ := mem_flatMap.mp hdq
  split at hmem
  · cases hmem
  · next attno con st hclause =>
    split at hmem
    · next col c hcol hc =>
      split at hmem
      · cases hmem
      · next hdate =>
        rw [not_not] at hdate
        split at hmem
        · cases hmem
        · next hcon =>
          rw [not_or, not_not] at hcon
          obtain ⟨⟨pos, a, u⟩, hmap, hsome⟩ := mem_filterMap.mp hmem
          dsimp only at hsome
          obtain ⟨hattno, hsome⟩ := ite_none_left_eq_some.mp hsome
          rw [not_not] at hattno
          cases hsome
          obtain ⟨d, hcmp⟩ := compared_of_varOpConst h hq hclause hcol (hsat q hq)
          obtain ⟨field, j, l, imp, x, d₀, hfield, hsel, hk, hid, -, hsource⟩ :=
            source_of_field hreads hmap hattno hcol hcmp
          have htr : field.transform = .temporal .day := by
            by_contra hne
            simp [hne] at hsel
          have hd := take_of_bindFieldId hsource.bind
            (.inr (h.lengthless _ (.inr (.inr hdate)))) hsource.take
          subst hd
          obtain ⟨days, hns, rfl, -⟩ := read_date hsource.bind hdate hsource.read
          have hnum : number con.constvalue = some c := by
            unfold temporalNumber at hc
            split at hc <;> simp_all [number]
          have hholds := hcmp.holds (.inr ⟨hdate.trans hcon.2.symm, .inr (.inl hdate)⟩)
            (by rw [hdate]; simp [Datum.HasType]) _ c rfl hnum
          refine (Option.any_eq_false _ _).mpr fun v hcell => Bool.eq_false_iff.mpr fun hex => ?_
          have hv := h.usable hspec hfield hcell hsource.mem
          rw [htr] at hv
          have hv := hv _ hns
          rw [bucketAt, mul_ediv_cancel _ (by decide)] at hv
          have hnot := iceFdwMetricExcludes_sound hex (le_refl v) (le_refl v)
          rw [hv] at hnot
          exact hnot (by rwa [sub_sub, add_comm] at hholds)
    · cases hmem

omit hreads hsat in
theorem compared_of_bucketClause {q : ScanQual} (hq : q ∈ scan.quals) {attno : ℤ}
    (hclause : bucketClause scan.cat scan.cols q = some (attno, con))
    (hcol : columnAt scan.cols attno = some col) (hrow : q.eval row = true) :
    iceFdwTypmodChangesValues col.att = false ∧
      (isTextType con.consttype = true → isTextType col.att.typid = true ∨
        ∃ oid, col.att.typid = .other oid) ∧
      (isTextType con.consttype = true → ∀ bytes, row[(attno - 1).toNat]? =
        some (some (.text bytes)) →
        con.constvalue = .text bytes) ∧
      ∃ d, Compared scan col con .equal row[(attno - 1).toNat]? d := by
  unfold bucketClause at hclause
  split at hclause
  · cases hclause
  · next opno args hexpr =>
    split at hclause
    · cases hclause
    · next attno' con' varLeft hargs =>
      split at hclause
      · cases hclause
      · split at hclause
        · cases hclause
        · next htypmod =>
          obtain ⟨hany, hclause⟩ := ite_none_left_eq_some.mp hclause
          obtain ⟨hdet, hclause⟩ := Option.ite_none_right_eq_some.mp hclause
          cases hclause
          rw [Bool.not_eq_false, any_eq_true] at hany
          obtain ⟨⟨s, fam⟩, hmem, hs⟩ := hany
          obtain rfl : s = 3 := of_decide_eq_true hs
          have hne := ne_nil_of_mem hmem
          have htyped := h.quals.typed q hq opno args _ _ varLeft hexpr hargs col hcol
          obtain ⟨d, hvalue, hholds⟩ := h.quals.strict q hq opno args _ _ varLeft hexpr hargs hne
            (columnAt_eq_some hcol).1 row hrow
          have hthree : strategyOf 3 = some .equal := rfl
          have hcmp := compared_of_operator h.operators hmem hthree htyped hvalue hholds
          refine ⟨?_, fun htext => ?_, fun htext => ?_, d, ?_⟩
          · simpa [hcol] using htypmod
          · refine h.operators.text opno hne _ con.consttype ?_ htext
            have htypes := htyped.1
            cases varLeft
            · exact .inr (by simpa using htypes)
            · exact .inl (by simpa using htypes)
          · exact h.quals.textEq q hq opno args _ _ varLeft hexpr hargs hdet
              ⟨fam, hmem⟩ htext row hrow
          · cases varLeft <;> exact hcmp

omit h hreads hsat in
theorem typid_ne_other {att : Att} {id : ℕ} {info : PqLeafInfo} {imp : ImpLeaf}
    (hbind : bindFieldId coercionFunction att id info = .ok imp) (oid : ℕ) :
    att.typid ≠ .other oid := by
  intro heq
  rcases (plan_of_bindFieldId hbind).2 with hwant | hwiden
  · simp [heq, pqWantPhysFor, pqWantPhys] at hwant
  · simp [heq, pqFieldIdWidens] at hwiden

/-- **Buckets** rule out a file only if no row satisfies the clause, unless they are those of a
decimal. -/
theorem bucket_sound (hspec : file.specId = scan.specid) {bq : IceBucketQual}
    (hbq : bq ∈ iceFdwBucketQuals scan.cat scan.cols
      (bucketMap scan.specFields scan.cols) scan.quals)
    (hno : ¬ ∃ field ∈ scan.specFields[bq.pos]?, IsDecimal f nm field.sourceId) :
    bucketExcludes file bq = false := by
  obtain ⟨q, hq, hmem⟩ := mem_flatMap.mp hbq
  split at hmem
  · cases hmem
  · next attno con hclause =>
    obtain ⟨⟨pos, a, n⟩, hmap, hsome⟩ := mem_filterMap.mp hmem
    dsimp only at hsome
    obtain ⟨hattno, hsome⟩ := ite_none_left_eq_some.mp hsome
    rw [not_not] at hattno
    obtain ⟨target, htarget, rfl⟩ := map_eq_some_iff.mp hsome
    obtain ⟨col, hcol⟩ : ∃ col, columnAt scan.cols attno = some col := by
      obtain ⟨field, -, -, hfc⟩ := mem_fieldMap hmap
      obtain ⟨col, hk, -, -⟩ := fieldColumn_eq_some hfc
      exact ⟨col, (columnAt_succ hattno).1.trans hk⟩
    obtain ⟨htypmod, htext, hbytes, d, hcmp⟩ :=
      compared_of_bucketClause h hq hclause hcol (hsat q hq)
    obtain ⟨field, j, l, imp, x, d₀, hfield, hsel, hk, hid, hvalue, hsource⟩ :=
      source_of_field hreads hmap hattno hcol hcmp
    have hd := take_of_bindFieldId hsource.bind (.inl htypmod) hsource.take
    subst hd
    obtain ⟨n', htr, rfl⟩ : ∃ n' : CInt, field.transform = .bucket n' ∧ n'.1 = n := by
      split at hsel
      · next n' htr =>
        split_ifs at hsel
        exact ⟨n', htr, Option.some.inj hsel⟩
      · cases hsel
    refine (Option.any_eq_false _ _).mpr fun v hcell => ?_
    have hv := h.usable hspec hfield hcell hsource.mem
    rw [htr] at hv
    have hnodec : l.info.sc.convertedType ≠ ctDecimal :=
      fun heq => hno ⟨field, hfield, j, l, hsource.carriers, hsource.leaf, heq⟩
    rw [decide_eq_false_iff_not, not_not]
    -- an equal integer, or the same bytes
    have hint : ∀ c, isIntType con.consttype = true → con.constvalue = .int c →
        v = iceBucketOf (int64Bytes c) n'.1 := by
      intro c hint hc
      have hcolint := hcmp.int.trans hint
      obtain ⟨m, hm, rfl, -⟩ := read_int hsource.bind hcolint hsource.read
      have htyped : Datum.HasType (.int m) col.att.typid := by
        rcases of_decide_eq_true hcolint with ht | ht | ht <;> rw [ht] <;> simp [Datum.HasType]
      have hholds := hcmp.holds (.inl ⟨hcolint, hint⟩) htyped m c rfl (by rw [hc]; rfl)
      obtain rfl : m = c := sub_eq_zero.mp hholds
      rw [iceBucketOf_eq]
      exact (hv hnodec).1 m hm
    have htexts : ∀ bytes, isTextType con.consttype = true → con.constvalue = .text bytes →
        v = iceBucketOf bytes n'.1 := by
      intro bytes htext' hc
      have hcoltext := (htext htext').resolve_right
        (not_exists.mpr (typid_ne_other hsource.bind))
      obtain ⟨bytes', hb, rfl⟩ := read_text hsource.bind (of_decide_eq_true hcoltext) hsource.read
      have heq := hbytes htext' bytes' hcmp.value
      rw [hc] at heq
      cases heq
      rw [iceBucketOf_eq]
      exact (hv hnodec).2 bytes hb
    unfold iceFdwBucketOfConst at htarget
    split_ifs at htarget
    split at htarget
    · next c ht hc =>
      cases htarget
      exact hint c (by rw [ht]; rfl) hc
    · next c ht hc =>
      cases htarget
      exact hint c (by rw [ht]; rfl) hc
    · next c ht hc =>
      cases htarget
      exact hint c (by rw [ht]; rfl) hc
    · next bytes ht hc =>
      cases htarget
      exact htexts bytes (by rw [ht]; rfl) hc
    · next bytes ht hc =>
      cases htarget
      exact htexts bytes (by rw [ht]; rfl) hc
    · cases htarget

/-! ### Partition columns -/

omit h hreads hsat in
/-- The tuple of the cells holds what every cell of a column says. -/
theorem partSlot_spec {cols : List Column} {pmap : List (Option ℕ)} {cells : List PartCell}
    {row row' : Row}
    {P : ℕ → Option Datum → Prop} (hlen : cells.length = pmap.length)
    (hP : ∀ (k : ℕ) a c, pmap[k]? = some (some a) → cells[k]? = some c →
      (c.isnull = true → P a none) ∧
      (c.isnull = false → ∀ d, ((cols[a]?).bind fun col =>
        iceFdwCellDatum verifyMbstr c col.att.typid) = some d → P a (some d)))
    {done : ℕ → Prop} (hdone : ∀ a v, done a → row[a]? = some v → P a v)
    (h : partSlot verifyMbstr cols pmap cells row = some row') :
    row'.length = row.length ∧ ∀ a v, done a ∨ some a ∈ pmap → row'[a]? = some v → P a v := by
  induction pmap generalizing cells row done with
  | nil =>
    obtain rfl := length_eq_zero_iff.mp hlen
    cases h
    exact ⟨rfl, fun a v hor => hdone a v (hor.resolve_right not_mem_nil)⟩
  | cons o pmap ih =>
    cases cells with
    | nil => cases hlen
    | cons c cells =>
      have hlen' : cells.length = pmap.length := Nat.succ.inj hlen
      have hP' := fun (k : ℕ) a c' hk hc => hP (k + 1) a c' (by simpa using hk) (by simpa using hc)
      cases o with
      | none =>
        rw [partSlot] at h
        obtain ⟨hlength, hall⟩ := ih hlen' hP' hdone h
        exact ⟨hlength, fun a v hor => hall a v (hor.imp_right fun hmem => by simpa using hmem)⟩
      | some b =>
        -- what is set now, or was before
        have hset : ∀ value, P b value → ∀ a v, (done a ∨ a = b) → (row.set b value)[a]? = some v →
          P a v := by
          intro value hvalue a v hor hget
          by_cases hab : b = a
          · subst hab
            rw [getElem?_set] at hget
            split at hget
            · split at hget
              · cases hget
                exact hvalue
              · cases hget
            · next hne => exact (hne rfl).elim
          · rw [getElem?_set_ne hab] at hget
            exact hdone a v (hor.resolve_right fun heq => hab heq.symm) hget
        have hfinish : ∀ value, P b value → partSlot verifyMbstr cols pmap cells (row.set b value) =
          some row' →
            row'.length = row.length ∧ ∀ a v, done a ∨ some a ∈ some b :: pmap → row'[a]? = some v →
              P a v := by
          intro value hvalue hrest
          obtain ⟨hlength, hall⟩ := @ih cells (row.set b value) hlen' hP' (fun a => done a ∨ a = b)
            (hset value hvalue) hrest
          refine ⟨hlength.trans length_set, fun a v hor => hall a v ?_⟩
          rcases hor with hd | hmem
          · exact .inl (.inl hd)
          · rcases mem_cons.mp hmem with heq | hmem
            · exact .inl (.inr (Option.some.inj heq))
            · exact .inr hmem
        obtain ⟨hnull, hvalue⟩ := hP 0 b c rfl rfl
        rw [partSlot] at h
        split at h
        · next hc => exact hfinish none (hnull hc) h
        · next hc =>
          split at h
          · cases h
          · next d hd => exact hfinish (some d) (hvalue (Bool.not_eq_true _ ▸ hc) d hd) h

omit h hreads hsat in
theorem toWidth_eq {bits : ℕ} {n : ℤ} (hbits : 1 ≤ bits) (hlow : -2 ^ (bits - 1) ≤ n)
    (hhigh : n < 2 ^ (bits - 1)) :
    toWidth bits n = n := by
  obtain ⟨b, rfl⟩ : ∃ b, bits = b + 1 := ⟨bits - 1, by omega⟩
  rw [Nat.add_sub_cancel] at hlow hhigh
  unfold toWidth
  refine bmod_eq_of_le_mul_two ?_ ?_ <;> push_cast <;> rw [pow_succ] <;> omega

omit h hreads hsat in
/-- A cell that can be converted is the value of a column that nothing changes. -/
theorem cellDatum_eq {id j : ℕ} {l : FileLeaf} {imp : ImpLeaf} {x : Stored} {d₀ d' : Datum}
    (hsource : Source coercionFunction coerceFn session f nm stored col id d j l imp x d₀)
    (htypmod : iceFdwTypmodChangesValues col.att = false) {cell : PartCell}
    (hcell : CellHolds monthOf .identity cell (some (l.info.sc, x)))
    (hdatum : iceFdwCellDatum verifyMbstr cell col.att.typid = some d') : d = d' := by
  obtain ⟨-, hholds⟩ := hcell
  have hd := take_of_bindFieldId hsource.bind (.inl htypmod) hsource.take
  subst hd
  unfold iceFdwCellDatum at hdatum
  obtain ⟨hcomp, hdatum⟩ := ite_none_left_eq_some.mp hdatum
  have hholds := hholds (Bool.not_eq_false _ ▸ hcomp)
  -- a cell of bytes stands for itself
  have htext : col.att.typid = .text ∨ col.att.typid = .varchar →
      (if cell.isBytes = false then none else if verifyMbstr cell.bytes then some
        (Datum.text cell.bytes) else none) =
        some d' → d = d' := by
    intro ht hsome
    obtain ⟨hbytes, hsome⟩ := ite_none_left_eq_some.mp hsome
    split at hsome
    · cases hsome
      rw [if_pos (Bool.not_eq_false _ ▸ hbytes)] at hholds
      obtain ⟨bytes, hb, rfl⟩ := read_text hsource.bind ht hsource.read
      rw [hholds rfl bytes hb]
    · cases hsome
  -- a cell of an integer is in the range of the column's type
  have hint : isIntType col.att.typid = true → cell.isBytes = false → ∃ n, d = .int n ∧
    cell.ival = n ∧
      intRange col.att.typid n := by
    intro ht hbytes
    rw [hbytes, if_neg Bool.false_ne_true] at hholds
    obtain ⟨n, hn, rfl, hrange⟩ := read_int hsource.bind ht hsource.read
    exact ⟨n, rfl, hholds n hn, hrange⟩
  split at hdatum
  · next ht => exact htext (.inl ht) hdatum
  · next ht => exact htext (.inr ht) hdatum
  · next ht =>
    obtain ⟨hbytes, hdatum⟩ := ite_none_left_eq_some.mp hdatum
    cases hdatum
    obtain ⟨n, rfl, hn, hrange⟩ := hint (by rw [ht]; rfl) (Bool.not_eq_true _ ▸ hbytes)
    rw [ht] at hrange
    rw [hn, toWidth_eq (by decide) hrange.1 hrange.2]
  · next ht =>
    obtain ⟨hbytes, hdatum⟩ := ite_none_left_eq_some.mp hdatum
    cases hdatum
    obtain ⟨n, rfl, hn, hrange⟩ := hint (by rw [ht]; rfl) (Bool.not_eq_true _ ▸ hbytes)
    rw [ht] at hrange
    rw [hn, toWidth_eq (by decide) hrange.1 hrange.2]
  · next ht =>
    obtain ⟨hbytes, hdatum⟩ := ite_none_left_eq_some.mp hdatum
    cases hdatum
    obtain ⟨n, rfl, hn, -⟩ := hint (by rw [ht]; rfl) (Bool.not_eq_true _ ▸ hbytes)
    rw [hn]
  · next ht =>
    obtain ⟨hbytes, hdatum⟩ := ite_none_left_eq_some.mp hdatum
    cases hdatum
    rw [if_neg hbytes] at hholds
    obtain ⟨b, hb, rfl⟩ := read_bool hsource.bind ht hsource.read
    have hival : cell.ival = if b then 1 else 0 := hholds _ hb
    rw [hival]
    cases b <;> rfl
  · cases hdatum

/-- **Partition values** rule out a file only if a clause is not true of any row. -/
theorem part_sound : partExcludes verifyMbstr (iceBeginForeignScan timestamp2tm scan) file =
    false := by
  unfold partExcludes
  split
  · rfl
  · next hno =>
    simp only [not_or, not_not] at hno
    obtain ⟨-, hspec, hlen⟩ := hno
    split
    · rfl
    · next row' hslot =>
      -- the slot has the row's value in every column whose typmod changes none
      have hcells := @partSlot_spec verifyMbstr scan.cols
        (identityPartMap scan.specFields scan.cols) file.cells
        (List.replicate scan.cols.length none) row'
        (fun a v => (∀ col, scan.cols[a]? = some col → iceFdwTypmodChangesValues col.att = false) →
          row[a]? = some v)
        hlen ?_ (fun _ => False) (fun _ _ hfalse => hfalse.elim) hslot
      · obtain ⟨hlength, hall⟩ := hcells
        rw [length_replicate] at hlength
        rw [any_eq_false]
        intro q hq
        obtain ⟨hq, hmask⟩ := mem_filter.mp hq
        simp only [Bool.and_eq_true, Bool.not_eq_true', all_eq_true, decide_eq_true_eq] at hmask
        obtain ⟨⟨-, hvolatile⟩, hattrs⟩ := hmask
        -- the clause names such columns only: on the slot it is what it is on the row
        have heval := h.quals.attrs q hq hvolatile
          (fun attno ha => (hattrs attno ha).1.1) row row' hreads.length hlength ?_
        · simp [← heval, hsat q hq]
        · intro attno hattno
          obtain ⟨⟨hone, hle⟩, hmasked⟩ := hattrs attno hattno
          unfold partMask at hmasked
          rw [Bool.and_eq_true, decide_eq_true_iff] at hmasked
          have hlt : (attno - 1).toNat < row'.length := by omega
          rw [getElem?_eq_getElem hlt]
          refine hall _ _ (.inr hmasked.1) (getElem?_eq_getElem hlt) fun col hcol => ?_
          have hok := hmasked.2
          rw [hcol, any_some, Bool.and_eq_true, Bool.not_eq_true'] at hok
          exact hok.2
      · intro k a c hk hc
        unfold identityPartMap at hk
        rw [getElem?_map, map_eq_some_iff] at hk
        obtain ⟨field, hfield, hsome⟩ := hk
        obtain ⟨htr, hsome⟩ := Option.ite_none_right_eq_some.mp hsome
        obtain ⟨col, hcol, hlive, hid⟩ := fieldColumn_eq_some hsome
        obtain ⟨value, hvalue, hfrom⟩ := hreads.value a col _ hcol hlive hid
        have hcell := h.cell hspec hfield hc
        rw [htr] at hcell
        cases value with
        | none =>
          have hnull : c.isnull = true := hcell none (none_mem_sourceValues hfrom)
          exact ⟨fun _ _ => hvalue, fun hnot => by rw [hnull] at hnot; cases hnot⟩
        | some d =>
          obtain ⟨j, l, imp, x, d₀, hsource⟩ := exists_source hfrom
          have hholds := hcell _ hsource.mem
          refine ⟨fun hnull => ?_, fun _ d' hd' hnochange => ?_⟩
          · rw [hholds.1] at hnull
            cases hnull
          · rw [hcol, Option.bind_some] at hd'
            rw [hvalue, cellDatum_eq hsource (hnochange col hcol) hholds hd']

end Rules

end PgColumnar.Iceberg
