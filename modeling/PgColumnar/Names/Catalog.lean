import PgColumnar.Lib.Compare
import PgColumnar.Lib.Naming
import PgColumnar.Sorted.Extent

/-!
# Column names kept in the catalogs

The sort key of a sorted run, the options `sort_by`, `sketch_columns` and `ttl_column`, and the
columns and sort key of a projection declaration are kept as column names.  After a
`RENAME COLUMN` the utility hook (`pgcolumnar_process_utility`) carries the new name into them
for every relation that the statement reached; `ttl_column` is not among them.  A `DROP COLUMN`
is refused while a projection stores the column, and nothing else is done about it; nothing is
done about an `ADD COLUMN`.

A rewrite that sorts, an insert, the option functions and the projection functions come
between the statements.  A row written before a column was added has the column's missing
value.  The planner takes the recorded key of a lexicographic run for the order of a scan
(`pgcolumnar_sorted_pathkeys`), and the retention looks up its column when it is applied.

## Main definitions

* `Table`, `Mark`, `Options` — a table with the names that its catalogs keep.
* `Database.alter` — the statements that change a column's name, or the groups.
-/

namespace PgColumnar.Names

/-- A row of `pg_attribute`: the type and the collation by their oids, the collation 0 where
there is none.  `missing` is what a row written before the column has. -/
structure Attribute (δ : Type) where
  attname : String
  attisdropped : Bool
  virtual : Bool
  atttypid : ℕ
  attcollation : ℕ
  missing : δ

/-- A column name in a catalog.  `attnum` is the column it resolved to when it was recorded,
which nothing reads. -/
structure Ref where
  name : String
  attnum : Option ℕ
  deriving DecidableEq

structure Group (δ : Type) where
  number : ℕ
  rows : List (List δ)

/-- The columns `sorted_from`, `sorted_through`, `sorted_by` and `sorted_kind` of
`pgcolumnar.storage`. -/
structure Mark where
  sortedFrom : ℕ
  sortedThrough : ℕ
  sortedBy : List Ref
  kind : Sorted.Kind

/-- A row of `pgcolumnar.options`. -/
structure Options where
  sortBy : Option (List Ref)
  sketchColumns : Option (List Ref)
  ttlColumn : Option Ref
  ttlInterval : Option ℕ

/-- A row of `pgcolumnar.projection`, by attribute numbers. -/
structure Projection where
  name : String
  columns : List ℕ
  sortKey : List ℕ

/-- A row of `pgcolumnar.projection_declaration`. -/
structure Declaration where
  name : String
  columns : List Ref
  sortKey : List Ref

/-- A columnar table and its rows of the catalogs; `nextGroup` is the next row group number. -/
structure Table (δ : Type) where
  attrs : List (Attribute δ)
  groups : List (Group δ)
  nextGroup : ℕ
  mark : Option Mark
  options : Options
  projections : List Projection
  declarations : List Declaration

/-- The columnar tables by their oids. -/
abbrev Database (δ : Type) := ℕ → Option (Table δ)

variable {δ : Type}

def Attribute.liveName (a : Attribute δ) : Option String :=
  if a.attisdropped then none else some a.attname

namespace Table

variable (t : Table δ)

def names : List (Option String) := t.attrs.map Attribute.liveName

/-- `get_attnum` -/
def getAttnum (name : String) : Option ℕ := Naming.lookup t.names name

/-- A name as it is recorded. -/
def ref (name : String) : Ref := ⟨name, t.getAttnum name⟩

/-- The column can be named in `sort_by`, in `sketch_columns` and in a rewrite. -/
def usable (name : String) : Bool :=
  (t.getAttnum name).any fun i => (t.attrs[i]?).any fun a => !a.virtual

/-- The names kept for the table that a rename is carried into. -/
def followed : List Ref :=
  (t.mark.elim [] Mark.sortedBy) ++ t.options.sortBy.getD [] ++ t.options.sketchColumns.getD [] ++
    t.declarations.flatMap fun d => d.columns ++ d.sortKey

/-- Every name kept for the table. -/
def refs : List Ref := t.followed ++ t.options.ttlColumn.toList

/-! ### Rows -/

variable [Inhabited δ]

/-- The value of column `i`. -/
def value (i : ℕ) (row : List δ) : δ :=
    row.getD i ((t.attrs[i]?.map Attribute.missing).getD default)

def typeOf (i : ℕ) : ℕ := (t.attrs[i]?.map Attribute.atttypid).getD 0

/-- The row with a value for every column, as a rewrite reads it. -/
def readRow (row : List δ) : List δ := (List.range t.attrs.length).map fun i => t.value i row

/-- The rows in their physical order. -/
def rows : List (List δ) := t.groups.flatMap Group.rows

/-- Two rows by column `i`, in the order of its type. -/
def columnCmp (cmp : ℕ → δ → δ → ℤ) (i : ℕ) (r r' : List δ) : ℤ :=
  cmp (t.typeOf i) (t.value i r) (t.value i r')

/-- Two rows by several columns, the first first. -/
def keyCmp (cmp : ℕ → δ → δ → ℤ) : List ℕ → List δ → List δ → ℤ
  | [] => fun _ _ => 0
  | i :: is => Compare.lex (t.columnCmp cmp i) (keyCmp cmp is)

end Table

/-! ### Statements -/

/-- What a rename does to the name in a catalog. -/
def Ref.rename (old new : String) (r : Ref) : Ref :=
    if r.name = old then { r with name := new } else r

def Attribute.rename (old new : String) (a : Attribute δ) : Attribute δ :=
  if a.liveName = some old then { a with attname := new } else a

def Attribute.drop (name : String) (a : Attribute δ) : Attribute δ :=
  if a.liveName = some name then { a with attisdropped := true } else a

/-- `PgColumnarRenameSortKeyColumn` -/
def renameSortKeyColumn (old new : String) (m : Mark) : Mark :=
  { m with sortedBy := m.sortedBy.map (Ref.rename old new) }

/-- `PgColumnarRenameDeclaredSortByColumn` -/
def renameDeclaredSortByColumn (old new : String) (o : Options) : Options :=
  { o with
    sortBy := o.sortBy.map (List.map (Ref.rename old new))
    sketchColumns := o.sketchColumns.map (List.map (Ref.rename old new)) }

/-- `PgColumnarRenameProjectionDeclarationColumn` -/
def renameProjectionDeclarationColumn (old new : String) (d : Declaration) : Declaration :=
  { d with columns := d.columns.map (Ref.rename old new), sortKey :=
    d.sortKey.map (Ref.rename old new) }

namespace Table

/-- `RENAME COLUMN`, and what the hook does after it. -/
def renameColumn (old new : String) (t : Table δ) : Table δ :=
  { t with
    attrs := t.attrs.map (Attribute.rename old new)
    mark := t.mark.map (renameSortKeyColumn old new)
    options := renameDeclaredSortByColumn old new t.options
    declarations := t.declarations.map (renameProjectionDeclarationColumn old new) }

def dropColumn (name : String) (t : Table δ) : Table δ :=
  { t with attrs := t.attrs.map (Attribute.drop name) }

def addColumn (a : Attribute δ) (t : Table δ) : Table δ := { t with attrs := t.attrs ++ [a] }

/-- `pgcolumnar_reject_drop_projected_column` -/
def rejectsDrop (name : String) (t : Table δ) : Bool :=
  (t.getAttnum name).any fun i => t.projections.any fun p => p.columns.contains i

/-- The groups of a rewrite, numbered from `first` on. -/
def newGroups (first : ℕ) (chunks : List (List (List δ))) : List (Group δ) :=
  chunks.mapIdx fun i rows => ⟨first + i, rows⟩

/-- A rewrite of the groups that are not kept: online into the numbers that follow, otherwise of
the whole table into new storage, where the numbers start again.  Nothing is recorded where
there are no rows. -/
def rewrite (online : Bool) (kind : Sorted.Kind) (key : List String) (kept : List ℕ)
    (chunks : List (List (List δ))) (t : Table δ) : Table δ :=
  let first := if online then t.nextGroup else 1
  { t with
    groups := (if online then t.groups.filter fun g => g.number ∈ kept else []) ++
      newGroups first chunks
    nextGroup := first + chunks.length
    mark :=
      if chunks = [] then if online then t.mark else none
      else some ⟨first, first + chunks.length - 1, key.map t.ref, kind⟩ }

/-- What the repair after a statement records again of a declaration in the new storage. -/
def rerecorded (t : Table δ) (d : Declaration) : Option Projection :=
  if (d.columns ++ d.sortKey).all fun ref => (t.getAttnum ref.name).isSome then
    some ⟨d.name, d.columns.filterMap fun ref => t.getAttnum ref.name,
      d.sortKey.filterMap fun ref => t.getAttnum ref.name⟩
  else none

/-- The second phase of an `ALTER TABLE` that cannot keep the file, such as an `ADD COLUMN` with a
volatile default: the rows go into new storage, of which no sorted run is recorded. -/
def replaceFile (chunks : List (List (List δ))) (t : Table δ) : Table δ :=
  { t with
    groups := newGroups 1 chunks
    nextGroup := 1 + chunks.length
    mark := none
    projections := t.declarations.filterMap t.rerecorded }

def setOptions (sortBy sketchColumns : Option (List String)) (ttlColumn : Option String)
    (ttlInterval : Option ℕ) (t : Table δ) : Table δ :=
  { t with options :=
    { sortBy := (sortBy.map (List.map t.ref)) <|> t.options.sortBy
      sketchColumns := (sketchColumns.map (List.map t.ref)) <|> t.options.sketchColumns
      ttlColumn := (ttlColumn.map t.ref) <|> t.options.ttlColumn
      ttlInterval := ttlInterval <|> t.options.ttlInterval } }

def resetOptions (sortBy sketchColumns : Bool) (t : Table δ) : Table δ :=
  { t with options :=
    { t.options with
      sortBy := if sortBy then none else t.options.sortBy
      sketchColumns := if sketchColumns then none else t.options.sketchColumns } }

def addProjection (name : String) (columns sortKey : List String) (t : Table δ) : Table δ :=
  { t with
    projections := t.projections ++
      [⟨name, columns.filterMap t.getAttnum, sortKey.filterMap t.getAttnum⟩]
    declarations := t.declarations.filter (fun d => d.name ≠ name) ++
      [⟨name, columns.map t.ref, sortKey.map t.ref⟩] }

def dropProjection (name : String) (t : Table δ) : Table δ :=
  { t with
    projections := t.projections.filter fun p => p.name ≠ name
    declarations := t.declarations.filter fun d => d.name ≠ name }

end Table

inductive Action (δ : Type) where
  | create (rel : ℕ) (attrs : List (Attribute δ))
  /-- The relations are those that the column is new in. -/
  | addColumn (rels : List ℕ) (attr : Attribute δ)
  /-- The check goes over `kin`, and the column goes from `rels`. -/
  | dropColumn (kin rels : List ℕ) (name : String)
  /-- `kin` is the named relation with its inheritors. -/
  | renameColumn (kin : List ℕ) (old new : String)
  /-- A rewrite that sorts; without a key it takes the declared one. -/
  | rewrite (rel : ℕ) (online : Bool) (kind : Sorted.Kind) (key : Option (List String))
      (kept : List ℕ) (chunks : List (List (List δ)))
  | replaceFile (rel : ℕ) (chunks : List (List (List δ)))
  | insert (rel : ℕ) (rows : List (List δ))
  | setOptions (rel : ℕ) (sortBy sketchColumns : Option (List String)) (ttlColumn : Option String)
      (ttlInterval : Option ℕ)
  | resetOptions (rel : ℕ) (sortBy sketchColumns : Bool)
  | addProjection (rel : ℕ) (name : String) (columns sortKey : List String)
  | dropProjection (rel : ℕ) (name : String)

/-- A statement on the columnar tables among some relations, if all of them allow it. -/
def Database.alter (db : Database δ) (rels : List ℕ) (ok : Table δ → Bool)
    (f : Table δ → Table δ) : Option (Database δ) :=
  if rels.all fun rel => (db rel).all ok then
    some fun rel => if rel ∈ rels then (db rel).map f else db rel
  else none

variable [DecidableEq δ] [Inhabited δ] (hasLt : ℕ → Bool) (cmp : ℕ → δ → δ → ℤ)

/-- The rows of the groups that a rewrite takes. -/
def Table.taken (online : Bool) (kept : List ℕ) (t : Table δ) : List (List δ) :=
  ((if online then t.groups.filter fun g => g.number ∉ kept else t.groups).flatMap Group.rows).map
    t.readRow

/-- The key of a rewrite. -/
def Table.rewriteKey (key : Option (List String)) (t : Table δ) : List String :=
  key.getD ((t.options.sortBy.getD []).map Ref.name)

/-- A rewrite writes the rows it takes back, for a lexicographic key in its order. -/
def Table.rewrites (online : Bool) (kind : Sorted.Kind) (key : Option (List String)) (kept : List ℕ)
    (chunks : List (List (List δ))) (t : Table δ) : Bool :=
  let names := t.rewriteKey key
  !names.isEmpty && names.all t.usable && decide (chunks.flatten.Perm (t.taken online kept)) &&
    (decide (kind ≠ .lexicographic) ||
      ((names.filterMap t.getAttnum).all (fun i => hasLt (t.typeOf i)) &&
        decide (chunks.flatten.Pairwise fun r r' =>
          t.keyCmp cmp (names.filterMap t.getAttnum) r r' ≤ 0)))

def step (db : Database δ) : Action δ → Option (Database δ)
  | .create rel attrs =>
    if db rel |>.isNone then
      if (attrs.map Attribute.attname).Nodup ∧ attrs.all fun a => !a.attisdropped then
        some fun r => if r = rel then
          some ⟨attrs, [], 1, none, ⟨none, none, none, none⟩, [], []⟩ else db r
      else none
    else none
  | .addColumn rels attr =>
    if attr.attisdropped then none
    else db.alter rels (fun t => (t.getAttnum attr.attname).isNone) (Table.addColumn attr)
  | .dropColumn kin rels name =>
    if kin.all (fun rel => (db rel).all fun t => !t.rejectsDrop name) && rels.all kin.contains then
      db.alter rels (fun t => (t.getAttnum name).isSome) (Table.dropColumn name)
    else none
  | .renameColumn kin old new =>
    db.alter kin (fun t => (t.getAttnum old).isSome && (t.getAttnum new).isNone)
      (Table.renameColumn old new)
  | .rewrite rel online kind key kept chunks =>
    db.alter [rel] (Table.rewrites hasLt cmp online kind key kept chunks)
      fun t => t.rewrite online kind (t.rewriteKey key) kept chunks
  | .replaceFile rel chunks =>
    db.alter [rel] (fun t => chunks.flatten.length = t.rows.length) (Table.replaceFile chunks)
  | .insert rel rows =>
    db.alter [rel] (fun _ => true) fun t =>
      { t with groups := t.groups ++ [⟨t.nextGroup, rows⟩], nextGroup := t.nextGroup + 1 }
  | .setOptions rel sortBy sketchColumns ttlColumn ttlInterval =>
    db.alter [rel] (fun t => (sortBy.getD []).all t.usable && (sketchColumns.getD []).all t.usable)
      (Table.setOptions sortBy sketchColumns ttlColumn ttlInterval)
  | .resetOptions rel sortBy sketchColumns =>
    db.alter [rel] (fun _ => true) (Table.resetOptions sortBy sketchColumns)
  | .addProjection rel name columns sortKey =>
    db.alter [rel] (fun t => columns.all (fun c => (t.getAttnum c).isSome) && columns ≠ [] &&
        sortKey.all columns.contains && t.projections.all fun p => p.name ≠ name)
      (Table.addProjection name columns sortKey)
  | .dropProjection rel name => db.alter [rel] (fun _ => true) (Table.dropProjection name)

/-! ### What the names are used for -/

/-- A query: the equivalence class of a column, if it has one, the classes that are a constant,
the length of the useful prefix, and the rows that the scan returns. -/
structure Query (δ : Type) where
  eclass : ℕ → Option ℕ
  redundant : ℕ → Bool
  useful : ℕ
  keep : List δ → Bool

/-- The columns a recorded key is claimed for, behind those already claimed. -/
def pathkeysFrom (q : Query δ) (t : Table δ) (pathkeys : List ℕ) : List Ref → List ℕ
  | [] => pathkeys
  | ref :: refs =>
    match t.getAttnum ref.name with
    | none => pathkeys
    | some i =>
      if hasLt (t.typeOf i) ∧ (t.attrs[i]?.map Attribute.attcollation).getD 0 = 0 then
        match q.eclass i with
        | none => pathkeys
        | some c =>
          if q.redundant c ∨ some c ∈ pathkeys.map q.eclass then pathkeysFrom q t pathkeys refs
          else pathkeysFrom q t (pathkeys ++ [i]) refs
      else pathkeys

/-- `pgcolumnar_sorted_pathkeys` -/
def sortedPathkeys (enabled : Bool) (q : Query δ) (t : Table δ) : List ℕ :=
  match t.mark, t.groups.head?, t.groups.getLast? with
  | some m, some first, some last =>
    if enabled = true ∧ m.kind = .lexicographic ∧ m.sortedFrom ≤ first.number ∧
        last.number ≤ m.sortedThrough then
      (pathkeysFrom hasLt q t [] m.sortedBy).take q.useful
    else []
  | _, _, _ => []

/-- `PgColumnarReadTtl`, and the column that `pgcolumnar_expire` finds by its name. -/
def expireColumn (t : Table δ) : Option ℕ :=
  match t.options.ttlColumn, t.options.ttlInterval with
  | some ref, some _ => t.getAttnum ref.name
  | _, _ => none

/-- The rows that a scan returns share the value of a constant class, and in each of them the
columns of one class are equal. -/
structure Query.Sound (q : Query δ) (t : Table δ) : Prop where
  const : ∀ i c, q.eclass i = some c → q.redundant c = true → ∀ r ∈ t.rows, ∀ r' ∈ t.rows,
    q.keep r = true → q.keep r' = true → t.columnCmp cmp i r r' = 0
  equal : ∀ i j c, q.eclass i = some c → q.eclass j = some c → ∀ r ∈ t.rows, ∀ r' ∈ t.rows,
    q.keep r = true → q.keep r' = true → t.columnCmp cmp i r r' = 0 → t.columnCmp cmp j r r' = 0

/-- What the names kept for a table promise. -/
structure Denotes (t : Table δ) : Prop where
  /-- A name means the column it was recorded for, or none. -/
  resolves : ∀ ref ∈ t.refs, ∀ i, t.getAttnum ref.name = some i → ref.attnum = some i
  /-- The order claimed is the physical order. -/
  order : ∀ enabled (q : Query δ), q.Sound cmp t → (t.rows.filter q.keep).Pairwise fun r r' =>
      t.keyCmp cmp (sortedPathkeys hasLt enabled q t) r r' ≤ 0
  /-- The retention tests the column that it was declared on. -/
  retention : ∀ i, expireColumn t = some i → ∃ ref ∈ t.options.ttlColumn, ref.attnum = some i

/-- The statements after which the names keep their promise: a column gets no name that a
catalog of its table still holds for another column, or for none. -/
def Benign (db : Database δ) : Action δ → Prop
  | .addColumn rels attr => ∀ rel ∈ rels, ∀ t ∈ db rel, ∀ ref ∈ t.refs, ref.name ≠ attr.attname
  | .renameColumn kin old new => ∀ rel ∈ kin, ∀ t ∈ db rel, ∀ ref ∈ t.refs,
    ref.name = new → ref.attnum = t.getAttnum old
  | _ => True

instance (db : Database δ) (a : Action δ) : Decidable (Benign db a) := by
  cases a <;> unfold Benign <;> infer_instance

end PgColumnar.Names
