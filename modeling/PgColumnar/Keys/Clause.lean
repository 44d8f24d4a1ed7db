import PgColumnar.Iceberg.Deletes

/-!
# Clauses that become pruning keys

The expressions and the columns that the rewriting of a clause into scan keys looks at
(`columnar_customscan.c`), for the two rewritings that look into the clause: `date_trunc` of a
column, and `LIKE` with an anchored pattern.

A constant of a type that no rewriting reads is known by its type only.

## Main definitions

* `OpExpr`, `ScanKey` — a clause, and a key made of it.

## Main results

* `not_excluded` — a key that a value satisfies excludes no zone around it.
-/

namespace PgColumnar.Keys

open Iceberg Zone

abbrev Oid := ℕ

def TEXTOID : Oid := 25
def TIMESTAMPOID : Oid := 1114

/-! ### Timestamps -/

def usecsPerDay : ℤ := 86400000000

/-- `MIN_TIMESTAMP`, the first day of November 24, 4714 BC -/
def minTimestamp : ℤ := -211813488000000000

/-- `END_TIMESTAMP`, the first day of 294277 -/
def endTimestamp : ℤ := 9223371331200000000

/-- `DT_NOBEGIN` -/
def noBegin : ℤ := -2 ^ 63

/-- `DT_NOEND` -/
def noEnd : ℤ := 2 ^ 63 - 1

/-- A timestamp: microseconds from the start of the year 2000, or one of the two infinities. -/
structure Timestamp where
  val : ℤ
  valid : val = noBegin ∨ val = noEnd ∨ minTimestamp ≤ val ∧ val < endTimestamp
  deriving DecidableEq

/-- Not `TIMESTAMP_NOT_FINITE`. -/
def Timestamp.Finite (t : Timestamp) : Prop := t.val ≠ noBegin ∧ t.val ≠ noEnd

instance (t : Timestamp) : Decidable t.Finite := by
  unfold Timestamp.Finite
  infer_instance

theorem Timestamp.Finite.range {t : Timestamp} (h : t.Finite) :
    minTimestamp ≤ t.val ∧ t.val < endTimestamp := by
  obtain hb | he | hr := t.valid
  · exact absurd hb h.1
  · exact absurd he h.2
  · exact hr

/-- `timestamp_cmp` -/
def timestampCmp (a b : Timestamp) : ℤ := btintCmp a.val b.val

/-! ### Clauses -/

/-- The datum of a constant. -/
inductive Value where
  | timestamp (t : Timestamp)
  | text (s : CString)
  | other (type : Oid)

structure Var where
  varno : ℕ
  varattno : ℤ
  varlevelsup : ℕ

/-- An expression: a column, a constant (`none` is a null), a binary-compatible cast, the call of a
function, or anything else. -/
inductive Node where
  | var (v : Var)
  | const (constvalue : Option Value)
  | relabel (arg : Node)
  | funcExpr (funcid : Oid) (args : List Node)
  | other

/-- An outer cast is looked through, once. -/
def Node.stripRelabel : Node → Node
  | .relabel arg => arg
  | n => n

structure OpExpr where
  opno : Oid
  inputcollid : Oid
  args : List Node

structure Attribute where
  atttypid : Oid
  attcollation : Oid

/-- The scan, its relation, and what the catalogs say. -/
structure Scan where
  scanrelid : ℕ
  tupdesc : List Attribute
  /-- the strategy of an operator in the btree family of `timestamp` -/
  timestampStrategy : Oid → Option Strategy
  /-- `COLUMNAR_COLLATION_IS_C` -/
  collationIsC : Oid → Bool

/-- The attribute of a column of the scanned relation. -/
def Scan.attOf (sc : Scan) (v : Var) : Option Attribute :=
  if v.varno = sc.scanrelid ∧ 1 ≤ v.varattno then sc.tupdesc[v.varattno.toNat - 1]? else none

/-- A key for pruning; the constant is of the column's type. -/
structure ScanKey (α : Type) where
  attno : ℤ
  strategy : Strategy
  subtype : Oid
  collation : Oid
  argument : α
  deriving DecidableEq

/-- The predicate that the reader makes of a key. -/
def ScanKey.predicate {α : Type} (key : ScanKey α) : Predicate α :=
  ⟨key.strategy, key.argument, false, [], nofun⟩

/-- The value satisfies the key, in the order of the column. -/
def ScanKey.Satisfied {α : Type} (cmp : α → α → ℤ) (key : ScanKey α) (v : α) : Prop :=
  key.strategy.holds (cmp v key.argument)

/-- **A key satisfied by a value excludes no zone around the value.** -/
theorem not_excluded {α : Type} {cmp : α → α → ℤ} (htotal : Compare.TotalCmp cmp) {key : ScanKey α}
    {v minv maxv : α} (h : key.Satisfied cmp v) (hlo : cmp minv v ≤ 0) (hhi : cmp v maxv ≤ 0) :
    extremesExclude cmp key.predicate minv maxv = false := by
  rw [← Bool.not_eq_true]
  intro hex
  apply not_satisfies_of_extremesExclude hlo hhi htotal.agrees (fun _ _ _ => Iff.rfl) hex
  exact h

end PgColumnar.Keys
