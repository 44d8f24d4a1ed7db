import PgColumnar.Lib.Ieee
import Mathlib.Data.List.Basic

/-!
# Scan keys as the whole filter

The clauses of a query become scan keys (`pgcolumnar_clause_to_scankey`).  The keys are made
for pruning and may be weaker than their clauses, so the batch fold, which has no filter but
the keys, runs only if `pgcolumnar_batch_gates_ok` finds that every clause is one comparison
of a column and a constant of one numeric type.

The catalog and the values of other expressions are parameters, and so are the keys of the
clauses that are not exact: the gate never lets one through.

## Main definitions

* `clauseToScankey` — the key of a clause; `qualsExactlyKeyed` is the gate.

## Main results

* `passes_eq_keysPass` — a clause holds exactly if its key passes.
* `execQual_eq_keysPass` — behind the gate the keys are the filter.
-/

namespace PgColumnar.Fold

open List Bool Int

abbrev Oid := BitVec 32

abbrev Datum := BitVec 64

/-- A row of the scanned relation, by attribute number; `none` is null. -/
abbrev Env := ℤ → Option Datum

structure Var where
  varno : ℕ
  varattno : ℤ
  vartype : Oid

structure Const where
  consttype : Oid
  constcollid : Oid
  constvalue : Datum
  constisnull : Bool

/-- An expression: a column, a constant, a binary-compatible cast, or anything else, known by
its type, the columns it reads and its value. -/
inductive Node where
  | var (v : Var)
  | const (c : Const)
  | relabel (arg : Node) (resulttype : Oid)
  | other (type : Oid) (attnos : List ℤ) (value : Env → Option Datum)

structure OpExpr where
  opno : Oid
  opresulttype : Oid
  inputcollid : Oid
  args : List Node

structure ScalarArrayOpExpr where
  opno : Oid
  useOr : Bool
  inputcollid : Oid
  args : List Node

inductive Clause where
  | opExpr (e : OpExpr)
  | scalarArrayOp (e : ScalarArrayOpExpr)
  | other (attnos : List ℤ) (value : Env → Option Datum)

structure ScanKey where
  flags : ℕ
  attno : ℤ
  strategy : ℕ
  subtype : Oid
  collation : Oid
  argument : Datum

structure Attribute where
  atttypid : Oid
  attcollation : Oid
  attbyval : Bool
  attlen : ℕ
  deriving Inhabited

/-- The columns of a relation. -/
abbrev TupleDesc := List Attribute

/-- What is read of the catalogs.  An oid or a strategy of zero is an invalid one. -/
structure Catalog where
  opcode : Oid → Oid
  funcStrict : Oid → Bool
  /-- the function, under a collation -/
  call : Oid → Oid → List (Option Datum) → Option Datum
  scalarArray : ScalarArrayOpExpr → Env → Option Datum
  btreeOpfamily : Oid → Oid
  gistOpfamily : Oid → Oid
  opFamilyStrategy : Oid → Oid → ℕ
  typeIsRange : Oid → Bool
  rngelemtype : Oid → Oid
  /-- the types an operator is declared for -/
  opInputTypes : Oid → Oid × Oid
  binaryCoercible : Oid → Oid → Bool

/-- The keys that only prune. -/
structure PruningKeys where
  saopScankey : ScalarArrayOpExpr → List ScanKey
  preimageRangeScankey : OpExpr → List ScanKey
  likePrefixScankey : OpExpr → List ScanKey

def BOOLOID : Oid := 16
def INT8OID : Oid := 20
def INT2OID : Oid := 21
def INT4OID : Oid := 23
def FLOAT4OID : Oid := 700
def FLOAT8OID : Oid := 701
def textLikeOp : Oid := 1209

/-- The scan and its relation. -/
structure Scan where
  cat : Catalog
  pruning : PruningKeys
  scanrelid : ℕ
  tupdesc : TupleDesc

variable (sc : Scan)

/-! ### Evaluation -/

def Node.value (env : Env) : Node → Option Datum
  | .var v => if v.varno = sc.scanrelid then env v.varattno else none
  | .const c => if c.constisnull then none else some c.constvalue
  | .relabel arg _ => arg.value env
  | .other _ _ f => f env

/-- A strict function is not called for a null. -/
def OpExpr.value (env : Env) (e : OpExpr) : Option Datum :=
  if sc.cat.funcStrict (sc.cat.opcode e.opno) &&
      (e.args.map (Node.value sc env)).any Option.isNone then none
  else sc.cat.call (sc.cat.opcode e.opno) e.inputcollid (e.args.map (Node.value sc env))

def Clause.value (env : Env) : Clause → Option Datum
  | .opExpr e => e.value sc env
  | .scalarArrayOp e => sc.cat.scalarArray e env
  | .other _ f => f env

/-- A clause holds if it is neither null nor false. -/
def passes (d : Option Datum) : Bool :=
  match d with
  | none => false
  | some v => decide (v ≠ 0)

/-- `ExecQual` -/
def execQual (quals : List Clause) (env : Env) : Bool := quals.all fun c => passes (c.value sc env)

/-! ### The keys of a clause -/

/-- A cast is looked through once. -/
def Node.stripRelabel : Node → Node
  | .relabel arg _ => arg
  | n => n

def attOf (attno : ℤ) : Option Attribute :=
  if attno < 1 then none else sc.tupdesc[(attno - 1).toNat]?

/-- The column and the constant of a comparison, and whether the column is on the left. -/
def varConst (leftop rightop : Node) : Option (Var × Const × Bool) :=
  match leftop.stripRelabel, rightop.stripRelabel with
  | .var v, .const c => some (v, c, true)
  | .const c, .var v => some (v, c, false)
  | _, _ => none

/-- The tests that every reading of a comparison makes on its column and constant. -/
def scanOperands (leftop rightop : Node) : Option (Var × Const × Bool × Attribute) :=
  (varConst leftop rightop).bind fun (v, c, varOnLeft) =>
    if v.varno ≠ sc.scanrelid then none
    else (attOf sc v.varattno).bind fun att =>
      if c.constisnull then none else some (v, c, varOnLeft, att)

structure VecPredicate where
  attidx : ℤ
  varOnLeft : Bool
  opFn : Oid
  constValue : Datum
  collation : Oid

/-- `pgcolumnar_clause_to_predicate` -/
def clauseToPredicate : Clause → Option VecPredicate
  | .opExpr e =>
    match e.args with
    | [leftop, rightop] =>
      if e.opresulttype ≠ BOOLOID then none
      else (scanOperands sc leftop rightop).bind fun (v, c, varOnLeft, _) =>
        if sc.cat.opcode e.opno = 0 ∨ sc.cat.funcStrict (sc.cat.opcode e.opno) = false then none
        else some ⟨v.varattno - 1, varOnLeft, sc.cat.opcode e.opno, c.constvalue, e.inputcollid⟩
    | _ => none
  | _ => none

/-- `PgColumnarCountConvertibleQuals` -/
def countConvertibleQuals (quals : List Clause) : ℕ × Bool :=
  (quals.countP fun c => (clauseToPredicate sc c).isSome,
    quals.all fun c => (clauseToPredicate sc c).isSome)

/-- `pgcolumnar_commute_strategy` -/
def commuteStrategy : ℕ → ℕ
  | 1 => 5
  | 2 => 4
  | 3 => 3
  | 4 => 2
  | 5 => 1
  | _ => 0

def PGC_SK_RANGE : ℕ := 0x8000
def PGC_RANGE_OVERLAP : ℕ := 101
def PGC_RANGE_CONTAINS_ELEM : ℕ := 102

/-- The key for overlap or containment of a range column. -/
def rangeScankey (e : OpExpr) (v : Var) (c : Const) (varOnLeft : Bool) : Option ScanKey :=
  if sc.cat.typeIsRange v.vartype then
    let family := sc.cat.gistOpfamily v.vartype
    let strat := if family = 0 then 0 else sc.cat.opFamilyStrategy e.opno family
    if strat = 3 ∧ c.consttype = v.vartype then
      some ⟨PGC_SK_RANGE, v.varattno, PGC_RANGE_OVERLAP, c.consttype, c.constcollid, c.constvalue⟩
    else if strat = 16 ∧ varOnLeft ∧ c.consttype = sc.cat.rngelemtype v.vartype ∧
        sc.cat.rngelemtype v.vartype ≠ 0 then
      some ⟨PGC_SK_RANGE, v.varattno, PGC_RANGE_CONTAINS_ELEM, c.consttype, c.constcollid,
        c.constvalue⟩
    else none
  else none

/-- The key of a btree comparison. -/
def btreeScankey (e : OpExpr) (v : Var) (c : Const) (varOnLeft : Bool) : Option ScanKey :=
  let family := sc.cat.btreeOpfamily v.vartype
  if family = 0 then none
  else
    let strat := sc.cat.opFamilyStrategy e.opno family
    let strat := if varOnLeft then strat else commuteStrategy strat
    if strat = 0 then none
    else some ⟨0, v.varattno, strat, c.consttype, c.constcollid, c.constvalue⟩

/-- `pgcolumnar_clause_to_scankey` for an operator: the keys, and whether they are exact. -/
def opExprToScankey (e : OpExpr) : List ScanKey × Bool :=
  match e.args with
  | [leftop, rightop] =>
    if sc.pruning.preimageRangeScankey e ≠ [] then (sc.pruning.preimageRangeScankey e, false)
    else
      match scanOperands sc leftop rightop with
      | none => ([], false)
      | some (v, c, varOnLeft, att) =>
        if e.inputcollid ≠ att.attcollation then ([], false)
        else if e.opno = textLikeOp ∧ varOnLeft then (sc.pruning.likePrefixScankey e, false)
        else
          match rangeScankey sc e v c varOnLeft with
          | some key => ([key], false)
          | none =>
            match btreeScankey sc e v c varOnLeft with
            | some key => ([key], true)
            | none => ([], false)
  | _ => ([], false)

/-- `pgcolumnar_clause_to_scankey` -/
def clauseToScankey : Clause → List ScanKey × Bool
  | .opExpr e => opExprToScankey sc e
  | .scalarArrayOp e => (sc.pruning.saopScankey e, false)
  | .other _ _ => ([], false)

/-- `PgColumnarBuildScanKeys` -/
def buildScanKeys (quals : List Clause) : List ScanKey :=
  quals.flatMap fun c => (clauseToScankey sc c).1

/-- `PgColumnarQualsExactlyKeyed` -/
def qualsExactlyKeyed (quals : List Clause) : Bool :=
  quals.all fun c => decide (1 ≤ (clauseToScankey sc c).1.length) && (clauseToScankey sc c).2

/-! ### The gate -/

inductive AggKind where
  | countStar
  | countCol
  | sumInt
  | avgInt
  | sumFloat
  | avgFloat
  | sumInt8
  | avgInt8
  | sumNumeric
  | avgNumeric
  | min
  | max
  | approxDistinct
  deriving DecidableEq

/-- An aggregate; `attidx` is the column of its argument. -/
structure AggSpec where
  kind : AggKind
  attidx : Option ℕ

/-- `pgcolumnar_batch_agg_ok` -/
def batchAggOk (haveInt128 : Bool) : AggKind → Bool
  | .countStar | .countCol | .sumInt | .avgInt | .sumFloat | .avgFloat => true
  | .sumInt8 | .avgInt8 => haveInt128
  | _ => false

/-- `pgcolumnar_batch_type_ok` -/
def batchTypeOk (typ : Oid) : Bool :=
  decide (typ = INT2OID ∨ typ = INT4OID ∨ typ = INT8OID ∨ typ = FLOAT4OID ∨ typ = FLOAT8OID)

/-- The tests on a key, once it is built. -/
def scanKeyOk (key : ScanKey) : Bool :=
  match attOf sc key.attno with
  | none => false
  | some att =>
    decide (key.flags = 0) && batchTypeOk att.atttypid &&
    (decide (key.subtype = 0) || decide (key.subtype = att.atttypid)) &&
    decide (1 ≤ key.strategy) && decide (key.strategy ≤ 5)

/-- `pgcolumnar_batch_gates_ok` -/
def batchGatesOk (haveInt128 : Bool) (specs : List AggSpec) (quals : List Clause)
    (projected : List ℕ) : Option (List ScanKey) :=
  if specs.all fun spec => batchAggOk haveInt128 spec.kind then
    if (countConvertibleQuals sc quals).2 && qualsExactlyKeyed sc quals &&
        projected.all (fun c => (sc.tupdesc[c]?).all (·.attbyval)) &&
        (buildScanKeys sc quals).all (scanKeyOk sc) then
      some (buildScanKeys sc quals)
    else none
  else none

/-! ### The comparison of the fold -/

def threeWay (a b : ℤ) : ℤ := if a < b then -1 else if b < a then 1 else 0

/-- `pgcolumnar_batch_float_cmp`, on the patterns of the numbers -/
def batchFloatCmp (a b : ℕ) : ℤ :=
  if Ieee.isNaN 11 52 a then if Ieee.isNaN 11 52 b then 0 else 1
  else if Ieee.isNaN 11 52 b then -1
  else threeWay (Ieee.orderKey 11 52 a) (Ieee.orderKey 11 52 b)

/-- The integer in the low bits of a datum. -/
def intOf (w : ℕ) (d : Datum) : ℤ := (d.setWidth w).toInt

/-- A single precision number is compared as a double precision one. -/
def doubleOf (d : Datum) : ℕ := Ieee.widen 8 23 11 52 (d.setWidth 32).toNat

def batchCompare (coltype : Oid) (val arg : Datum) : Option ℤ :=
  if coltype = INT2OID then some (threeWay (intOf 16 val) (intOf 16 arg))
  else if coltype = INT4OID then some (threeWay (intOf 32 val) (intOf 32 arg))
  else if coltype = INT8OID then some (threeWay (intOf 64 val) (intOf 64 arg))
  else if coltype = FLOAT4OID then some (batchFloatCmp (doubleOf val) (doubleOf arg))
  else if coltype = FLOAT8OID then some (batchFloatCmp val.toNat arg.toNat)
  else none

def strategyTest (strat : ℕ) (c : ℤ) : Bool :=
  match strat with
  | 1 => decide (c < 0)
  | 2 => decide (c ≤ 0)
  | 3 => decide (c = 0)
  | 4 => decide (0 ≤ c)
  | 5 => decide (0 < c)
  | _ => false

/-- `pgcolumnar_batch_key_pass` -/
def batchKeyPass (coltype : Oid) (val : Datum) (strat : ℕ) (arg : Datum) : Bool :=
  match batchCompare coltype val arg with
  | none => false
  | some c => strategyTest strat c

/-- The loop over the scan keys, on one row. -/
def keysPass (keys : List ScanKey) (env : Env) : Bool :=
  keys.all fun key =>
    match env key.attno, attOf sc key.attno with
    | some val, some att => batchKeyPass att.atttypid val key.strategy key.argument
    | _, _ => false

/-- The place of a datum in the order of its type. -/
def typeKey (typ : Oid) (d : Datum) : ℤ :=
  if typ = INT2OID then intOf 16 d
  else if typ = INT4OID then intOf 32 d
  else if typ = INT8OID then intOf 64 d
  else if typ = FLOAT4OID then Ieee.orderKey 8 23 (d.setWidth 32).toNat
  else Ieee.orderKey 11 52 d.toNat

/-! ### What the parser and the catalog promise -/

/-- The operators in the family of a numeric type compare two values of the type as the
strategy says, and no cast between two types of a family is binary compatible. -/
structure Catalog.NumericFamilies (cat : Catalog) : Prop where
  compares : ∀ typ op, batchTypeOk typ = true →
    cat.opFamilyStrategy op (cat.btreeOpfamily typ) ≠ 0 → cat.opInputTypes op = (typ, typ) →
    ∀ coll a b, passes (cat.call (cat.opcode op) coll [some a, some b]) =
      strategyTest (cat.opFamilyStrategy op (cat.btreeOpfamily typ)) (typeKey typ a - typeKey typ b)
  relabel_eq : ∀ typ result op, batchTypeOk typ = true →
    cat.opFamilyStrategy op (cat.btreeOpfamily typ) ≠ 0 → cat.binaryCoercible typ result = true →
    (result = (cat.opInputTypes op).1 ∨ result = (cat.opInputTypes op).2) → result = typ

def Node.type : Node → Oid
  | .var v => v.vartype
  | .const c => c.consttype
  | .relabel _ resulttype => resulttype
  | .other type _ _ => type

def Node.WellTyped : Node → Prop
  | .var v => v.varno = sc.scanrelid → ∀ att ∈ attOf sc v.varattno, v.vartype = att.atttypid
  | .const c => c.consttype ≠ 0
  | .relabel arg resulttype => arg.WellTyped ∧ sc.cat.binaryCoercible arg.type resulttype = true
  | .other _ _ _ => True

/-- The arguments of an operator are of the types it is declared for. -/
def Clause.WellTyped : Clause → Prop
  | .opExpr e => (∀ n ∈ e.args, n.WellTyped sc) ∧
      ∀ l r, e.args = [l, r] → sc.cat.opInputTypes e.opno = (l.type, r.type)
  | _ => True

/-! ### Comparisons by place -/

variable {sc}

theorem threeWay_sign (a b : ℤ) : (threeWay a b).sign = (a - b).sign := by
  unfold threeWay
  split
  · rw [sign_eq_neg_one_of_neg (show a - b < 0 by omega)]
    rfl
  · split
    · rw [sign_eq_one_of_pos (show 0 < a - b by omega)]
      rfl
    · rw [show a - b = 0 by omega]

/-- NaN is compared by its place, above the other numbers. -/
theorem batchFloatCmp_sign (a b : ℕ) :
    (batchFloatCmp a b).sign = (Ieee.orderKey 11 52 a - Ieee.orderKey 11 52 b).sign := by
  unfold batchFloatCmp
  cases ha : Ieee.isNaN 11 52 a with
  | true =>
    cases hb : Ieee.isNaN 11 52 b with
    | true => rw [Ieee.orderKey_nan ha, Ieee.orderKey_nan hb]; rfl
    | false =>
      have hlt := Ieee.orderKey_lt hb
      rw [← Ieee.orderKey_nan ha] at hlt
      rw [sign_eq_one_of_pos (sub_pos.mpr hlt)]
      rfl
  | false =>
    cases hb : Ieee.isNaN 11 52 b with
    | true =>
      have hlt := Ieee.orderKey_lt ha
      rw [← Ieee.orderKey_nan hb] at hlt
      rw [sign_eq_neg_one_of_neg (sub_neg.mpr hlt)]
      rfl
    | false => exact threeWay_sign _ _

theorem strategyTest_congr {c c' : ℤ} (h : c.sign = c'.sign) (strat : ℕ) :
    strategyTest strat c = strategyTest strat c' := by
  have hneg : c < 0 ↔ c' < 0 := by rw [← sign_neg_iff, h, sign_neg_iff]
  have hpos : 0 < c ↔ 0 < c' := by rw [← sign_pos_iff, h, sign_pos_iff]
  unfold strategyTest
  split <;> simp only [decide_eq_decide] <;> omega

theorem strategyTest_commute (strat : ℕ) (a b : ℤ) :
    strategyTest (commuteStrategy strat) (a - b) = strategyTest strat (b - a) := by
  unfold strategyTest commuteStrategy
  rcases strat with _ | _ | _ | _ | _ | _ | n <;> (simp; try omega)

theorem batchKeyPass_eq {typ : Oid} (htyp : batchTypeOk typ = true) (val arg : Datum) (strat : ℕ) :
    batchKeyPass typ val strat arg = strategyTest strat (typeKey typ val - typeKey typ arg) := by
  unfold batchKeyPass batchCompare typeKey
  rcases of_decide_eq_true htyp with rfl | rfl | rfl | rfl | rfl
  · exact strategyTest_congr (threeWay_sign _ _) _
  · exact strategyTest_congr (threeWay_sign _ _) _
  · exact strategyTest_congr (threeWay_sign _ _) _
  · exact strategyTest_congr ((batchFloatCmp_sign _ _).trans (Ieee.orderKey_widen_sign _ _)) _
  · exact strategyTest_congr (batchFloatCmp_sign _ _) _

/-! ### One exact key for each clause -/

variable {l r : Node} {varOnLeft : Bool} {c : Const}

theorem scanOperands_eq_some {v : Var} {att : Attribute}
    (h : scanOperands sc l r = some (v, c, varOnLeft, att)) :
    varConst l r = some (v, c, varOnLeft) ∧ v.varno = sc.scanrelid ∧
      attOf sc v.varattno = some att ∧ c.constisnull = false := by
  unfold scanOperands at h
  obtain ⟨⟨v', c', lft⟩, hvc, h⟩ := Option.bind_eq_some_iff.mp h
  dsimp only at h
  split at h
  · cases h
  · next hvarno =>
    obtain ⟨att', hatt, h⟩ := Option.bind_eq_some_iff.mp h
    split_ifs at h with hnull
    cases h
    exact ⟨hvc, not_not.mp hvarno, hatt, not_eq_true _ ▸ hnull⟩

variable {e : OpExpr}

theorem btreeScankey_eq_some {v : Var} {key : ScanKey}
    (h : btreeScankey sc e v c varOnLeft = some key) :
    sc.cat.opFamilyStrategy e.opno (sc.cat.btreeOpfamily v.vartype) ≠ 0 ∧ key = ⟨0, v.varattno,
        if varOnLeft then sc.cat.opFamilyStrategy e.opno (sc.cat.btreeOpfamily v.vartype)
        else commuteStrategy (sc.cat.opFamilyStrategy e.opno (sc.cat.btreeOpfamily v.vartype)),
        c.consttype, c.constcollid, c.constvalue⟩ := by
  unfold btreeScankey at h
  dsimp only at h
  split at h
  · cases h
  · cases varOnLeft with
    | true =>
      simp only [if_true] at h ⊢
      split_ifs at h with hstrat
      exact ⟨hstrat, (Option.some.inj h).symm⟩
    | false =>
      simp only [false_eq_true, if_false] at h ⊢
      split_ifs at h with hstrat
      -- an invalid strategy has no converse
      exact ⟨fun hzero => hstrat (by rw [hzero]; rfl), (Option.some.inj h).symm⟩

/-- Only a btree comparison is exact. -/
theorem clauseToScankey_exact {c : Clause} (h : (clauseToScankey sc c).2 = true) :
    ∃ e l r v k varOnLeft att key, c = .opExpr e ∧ e.args = [l, r] ∧
      scanOperands sc l r = some (v, k, varOnLeft, att) ∧
      btreeScankey sc e v k varOnLeft = some key ∧ (clauseToScankey sc c).1 = [key] := by
  cases c with
  | scalarArrayOp e | other a f => cases h
  | opExpr e =>
    simp only [clauseToScankey, opExprToScankey] at h ⊢
    split at h
    swap
    · cases h
    next l r hargs =>
    split at h
    · cases h
    next hpre =>
    split at h
    · cases h
    next v k varOnLeft att hops =>
    split at h
    · cases h
    next hcoll =>
    split at h
    · cases h
    next hlike =>
    split at h
    · cases h
    next hrange =>
    split at h
    swap
    · cases h
    next key hkey =>
    refine ⟨e, l, r, v, k, varOnLeft, att, key, rfl, hargs, hops, hkey, ?_⟩
    simp only [if_neg hpre, if_neg hcoll, if_neg hlike]

/-- A cast leaves the value. -/
theorem value_stripRelabel (env : Env) (n : Node) :
    n.stripRelabel.value sc env = n.value sc env := by
  cases n <;> rfl

theorem wellTyped_stripRelabel {n : Node} (h : n.WellTyped sc) : n.stripRelabel.WellTyped sc := by
  cases n with
  | relabel arg t => exact h.1
  | var v | const c | other t a f => exact h

/-- The column and the constant stand on the two sides. -/
theorem varConst_eq_some {v : Var} (h : varConst l r = some (v, c, varOnLeft)) :
    (l.stripRelabel = .var v ∧ r.stripRelabel = .const c ∧ varOnLeft = true) ∨
      (l.stripRelabel = .const c ∧ r.stripRelabel = .var v ∧ varOnLeft = false) := by
  unfold varConst at h
  split at h
  · next hl hr =>
    cases h
    exact .inl ⟨hl, hr, rfl⟩
  · next hl hr =>
    cases h
    exact .inr ⟨hl, hr, rfl⟩
  · cases h

/-- The type of an operand whose column or constant is of a numeric type. -/
theorem type_stripRelabel {typ : Oid} (hcat : sc.cat.NumericFamilies) {n : Node}
    (hn : n.WellTyped sc)
    {op : Oid} (htyp : batchTypeOk typ = true) (hstrip : n.stripRelabel.type = typ)
    (hstrat : sc.cat.opFamilyStrategy op (sc.cat.btreeOpfamily typ) ≠ 0)
    (hin : n.type = (sc.cat.opInputTypes op).1 ∨ n.type = (sc.cat.opInputTypes op).2) :
    n.type = typ := by
  cases n with
  | relabel arg result =>
    have hcoerce : sc.cat.binaryCoercible arg.type result = true := hn.2
    rw [show arg.type = typ from hstrip] at hcoerce
    exact hcat.relabel_eq typ result op htyp hstrat hcoerce hin
  | var v | const c | other t a f => exact hstrip

/-- A strict operator on two operands. -/
theorem passes_opExpr (hargs : e.args = [l, r])
    (hstrict : sc.cat.funcStrict (sc.cat.opcode e.opno) = true) (env : Env) :
    passes (e.value sc env) =
      match l.value sc env, r.value sc env with
      | some a, some b => passes (sc.cat.call (sc.cat.opcode e.opno) e.inputcollid [some a, some b])
      | _, _ => false := by
  unfold OpExpr.value
  rw [hargs, hstrict]
  cases hl : l.value sc env <;> cases hr : r.value sc env <;> simp [hl, hr, passes]

theorem strict_of_predicate (hargs : e.args = [l, r])
    (hpred : (clauseToPredicate sc (.opExpr e)).isSome = true) :
    sc.cat.funcStrict (sc.cat.opcode e.opno) = true := by
  simp only [clauseToPredicate, hargs] at hpred
  by_contra hs
  rw [not_eq_true] at hs
  split at hpred
  · cases hpred
  · cases hops : scanOperands sc l r <;> simp [hops, hs] at hpred

/-- The types of the operands, and with them what the operator computes. -/
theorem opInputTypes_eq {typ : Oid} (hcat : sc.cat.NumericFamilies)
    (hwt : (Clause.opExpr e).WellTyped sc) (hargs : e.args = [l, r])
    (htyp : batchTypeOk typ = true)
    (hstrat : sc.cat.opFamilyStrategy e.opno (sc.cat.btreeOpfamily typ) ≠ 0)
    (hl : l.stripRelabel.type = typ) (hr : r.stripRelabel.type = typ) :
    sc.cat.opInputTypes e.opno = (typ, typ) := by
  obtain ⟨hargsWt, hin⟩ := hwt
  have hlWt : l.WellTyped sc := hargsWt l (by rw [hargs]; simp)
  have hrWt : r.WellTyped sc := hargsWt r (by rw [hargs]; simp)
  have hin := hin l r hargs
  have hltyp : l.type = typ := type_stripRelabel hcat hlWt htyp hl hstrat (.inl (by rw [hin]))
  have hrtyp : r.type = typ := type_stripRelabel hcat hrWt htyp hr hstrat (.inr (by rw [hin]))
  rw [hin, hltyp, hrtyp]

/-- **A clause holds exactly if its key passes.** -/
theorem passes_eq_keysPass (hcat : sc.cat.NumericFamilies) {c : Clause} (hwt : c.WellTyped sc)
    (hpred : (clauseToPredicate sc c).isSome = true) (hexact : (clauseToScankey sc c).2 = true)
    (hok : ∀ key ∈ (clauseToScankey sc c).1, scanKeyOk sc key = true) (env : Env) :
    passes (c.value sc env) = keysPass sc (clauseToScankey sc c).1 env := by
  obtain ⟨e, l, r, v, k, varOnLeft, att, key, rfl, hargs, hops, hbtree, hkeys⟩ :=
    clauseToScankey_exact hexact
  obtain ⟨hvc, hvarno, hatt, hnull⟩ := scanOperands_eq_some hops
  obtain ⟨hstrat, rfl⟩ := btreeScankey_eq_some hbtree
  have hstrict := strict_of_predicate hargs hpred
  -- the key is about a numeric column and a constant of its type
  have hgate := hok _ (by rw [hkeys]; exact mem_singleton_self _)
  unfold scanKeyOk at hgate
  simp only [hatt, decide_true, Bool.true_and, Bool.and_eq_true, Bool.or_eq_true,
    decide_eq_true_eq] at hgate
  obtain ⟨⟨⟨htyp, hsub⟩, -⟩, -⟩ := hgate
  have hvtyp : ∀ n ∈ e.args, n.stripRelabel = .var v → v.vartype = att.atttypid := by
    intro n hn hstrip
    have hwtv := wellTyped_stripRelabel (hwt.1 n hn)
    rw [hstrip] at hwtv
    exact hwtv hvarno att hatt
  have hktyp : ∀ n ∈ e.args, n.stripRelabel = .const k → k.consttype = att.atttypid := by
    intro n hn hstrip
    have hwtk := wellTyped_stripRelabel (hwt.1 n hn)
    rw [hstrip] at hwtk
    exact hsub.resolve_left hwtk
  have hl : l ∈ e.args := by rw [hargs]; exact mem_cons_self
  have hr : r ∈ e.args := by rw [hargs]; exact mem_cons_of_mem _ mem_cons_self
  have hvalue : (Node.var v).value sc env = env v.varattno := if_pos hvarno
  have hconst : (Node.const k).value sc env = some k.constvalue := by
    rw [Node.value, hnull]
    rfl
  rw [Clause.value, passes_opExpr hargs hstrict, hkeys, ← value_stripRelabel env l,
    ← value_stripRelabel env r]
  simp only [keysPass, all_cons, all_nil, Bool.and_true, hatt]
  rcases varConst_eq_some hvc with ⟨hlv, hrk, rfl⟩ | ⟨hlk, hrv, rfl⟩
  · rw [hvtyp l hl hlv] at hstrat ⊢
    have htypes := opInputTypes_eq hcat hwt hargs htyp hstrat (by rw [hlv]; exact hvtyp l hl hlv)
      (by rw [hrk]; exact hktyp r hr hrk)
    rw [hlv, hrk, hvalue, hconst]
    cases env v.varattno with
    | none => rfl
    | some d =>
      simp only [if_true]
      rw [batchKeyPass_eq htyp, hcat.compares _ _ htyp hstrat htypes]
  · rw [hvtyp r hr hrv] at hstrat ⊢
    have htypes := opInputTypes_eq hcat hwt hargs htyp hstrat (by rw [hlk]; exact hktyp l hl hlk)
      (by rw [hrv]; exact hvtyp r hr hrv)
    rw [hlk, hrv, hvalue, hconst]
    cases env v.varattno with
    | none => rfl
    | some d =>
      -- the strategy was commuted with the operands
      simp only [false_eq_true, if_false]
      rw [batchKeyPass_eq htyp, strategyTest_commute, hcat.compares _ _ htyp hstrat htypes]

theorem batchGatesOk_eq_some {haveInt128 : Bool} {specs : List AggSpec} {quals : List Clause}
    {projected : List ℕ} {keys : List ScanKey}
    (h : batchGatesOk sc haveInt128 specs quals projected = some keys) :
    keys = buildScanKeys sc quals ∧
      (∀ c ∈ quals, (clauseToPredicate sc c).isSome = true ∧ (clauseToScankey sc c).2 = true) ∧
      (∀ key ∈ keys, scanKeyOk sc key = true) ∧
      ∀ c ∈ projected, ∀ att ∈ sc.tupdesc[c]?, att.attbyval = true := by
  unfold batchGatesOk at h
  split at h
  swap
  · cases h
  split at h
  swap
  · cases h
  next htests =>
  cases h
  simp only [countConvertibleQuals, qualsExactlyKeyed, Bool.and_eq_true, all_eq_true,
    Option.all_eq_true] at htests
  obtain ⟨⟨⟨hpred, hexact⟩, hbyval⟩, hkeys⟩ := htests
  exact ⟨rfl, fun c hc => ⟨hpred c hc, (hexact c hc).2⟩, hkeys, hbyval⟩

/-- **Behind the gate a row satisfies the filter exactly if it passes every key.** -/
theorem execQual_eq_keysPass {haveInt128 : Bool} {specs : List AggSpec} {quals : List Clause}
    {projected : List ℕ} {keys : List ScanKey} (hcat : sc.cat.NumericFamilies)
    (hwt : ∀ c ∈ quals, c.WellTyped sc)
    (h : batchGatesOk sc haveInt128 specs quals projected = some keys) (env : Env) :
    execQual sc quals env = keysPass sc keys env := by
  obtain ⟨rfl, hquals, hkeys, -⟩ := batchGatesOk_eq_some h
  clear h
  induction quals with
  | nil => rfl
  | cons c quals ih =>
    simp only [buildScanKeys, flatMap_cons, mem_append] at hkeys ⊢
    have hc := hquals c (by simp)
    have hclause := passes_eq_keysPass hcat (hwt c (by simp)) hc.1 hc.2
      (fun key hk => hkeys key (.inl hk)) env
    have hrest := ih (fun c hc => hwt c (by simp [hc])) (fun c hc => hquals c (by simp [hc]))
      fun key hk => hkeys key (.inr hk)
    unfold execQual at hrest ⊢
    rw [all_cons, hclause, hrest]
    unfold keysPass buildScanKeys
    rw [all_append]

end PgColumnar.Fold
