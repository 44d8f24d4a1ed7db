import PgColumnar.Parquet.Value
import PgColumnar.Zone.Btree

/-!
# Skipping row groups

The scan of a Parquet file leaves out a row group whose statistics refute one of the
query's clauses (`pqfdw_compute_skip`).  The least and the greatest value are read as the
values of the column are, so they bound what the scan would return as long as the reading
keeps the order in which the writer took them.  The writer leaves NaN out of them.

The system catalog's operators, families and comparison procedures are parameters.

## Main definitions

* `pqfdwComputeSkip` — the groups that the statistics rule out.
* `RowGroup.Bounded` — statistics that bound the stored values.

## Main results

* `pqfdwComputeSkip_sound` — a group that is skipped has no row asked for.
-/

namespace PgColumnar.Parquet

open Bytes Compare Zone List Int

/-! ### Statistics -/

/-- The fields of `PqChunk` for statistics. -/
structure PqChunk where
  statMin : Option (List Byte)
  statMax : Option (List Byte)

/-- One field of a `Statistics` struct: its id and its bytes. -/
def parseStatField (ch : PqChunk) (field : ℕ × List Byte) : PqChunk :=
  match field.1 with
  | 1 => if ch.statMax.isSome then ch else { ch with statMax := some field.2 }
  | 2 => if ch.statMin.isSome then ch else { ch with statMin := some field.2 }
  | 5 => { ch with statMax := some field.2 }
  | 6 => { ch with statMin := some field.2 }
  | _ => ch

/-- `parse_statistics` -/
def parseStatistics (fields : List (ℕ × List Byte)) : PqChunk :=
    fields.foldl parseStatField ⟨none, none⟩

/-- The orders in which the extremes of a leaf may have been taken: the signed one, and for
an integer that is annotated as unsigned the unsigned one.  A leaf with a unit is a time. -/
def OwnOrder (sc : PqSchemaCol) : SortOrder → Prop
  | .signed => True
  | .unsigned => sc.isUnsigned = true ∧ sc.timeUnit = .none

/-- The place of a stored value in the order of its physical type. -/
def physKey (phys : PhysType) (order : SortOrder) (bytes : List Byte) : ℤ :=
  match phys with
  | .int32 => inOrder order (128 * 256 ^ 3) (signedOf 4 (bytes.take 4))
  | .int64 => inOrder order (128 * 256 ^ 7) (signedOf 8 (bytes.take 8))
  | .float => Ieee.orderKey 8 23 (leNat (bytes.take 4))
  | .double => Ieee.orderKey 11 52 (leNat (bytes.take 8))
  | _ => 0

def physNaN (phys : PhysType) (bytes : List Byte) : Bool :=
  match phys with
  | .float => Ieee.isNaN 8 23 (leNat (bytes.take 4))
  | .double => Ieee.isNaN 11 52 (leNat (bytes.take 8))
  | _ => false

/-- The extremes that are stored bound the stored values.  NaN is not counted, and as an
extreme it says nothing. -/
def StatsBound (sc : PqSchemaCol) (ch : PqChunk) (values : List (List Byte)) : Prop :=
  ∃ order, OwnOrder sc order ∧ ∀ v ∈ values, physNaN sc.physType v = false →
    (∀ mn ∈ ch.statMin, physNaN sc.physType mn = false →
      physKey sc.physType order mn ≤ physKey sc.physType order v) ∧
    ∀ mx ∈ ch.statMax, physNaN sc.physType mx = false →
      physKey sc.physType order v ≤ physKey sc.physType order mx

/-! ### The catalog and the clauses -/

structure Const where
  consttype : TypeOid
  constisnull : Bool
  constvalue : Datum

structure Catalog where
  /-- `get_op_btree_interpretation`: strategy numbers and families -/
  opInterpretation : ℕ → List (ℕ × ℕ)
  /-- `get_opfamily_proc` for `BTORDER_PROC` -/
  opfamilyProc : ℕ → TypeOid → TypeOid → Option (Datum → Datum → ℤ)
  operandTypes : ℕ → TypeOid × TypeOid
  operator : ℕ → Datum → Datum → Prop

inductive Arg where
  | var (attno : ℤ)
  | const (con : Const)
  | other

inductive Qual where
  | opExpr (opno : ℕ) (args : List Arg)
  | other

/-- A column, a constant, and whether the column is on the left. -/
def varAndConst : List Arg → Option (ℤ × Const × Bool)
  | [.var attno, .const con] => some (attno, con, true)
  | [.const con, .var attno] => some (attno, con, false)
  | _ => none

def strategyOf : ℕ → Option Strategy
  | 1 => some .less
  | 2 => some .lessEqual
  | 3 => some .equal
  | 4 => some .greaterEqual
  | 5 => some .greater
  | _ => none

/-- The strategy and the family of the operator's first btree comparison. -/
def firstInterpretation (cat : Catalog) (opno : ℕ) : Option (Strategy × ℕ) :=
  (cat.opInterpretation opno).findSome? fun o => (strategyOf o.1).map (·, o.2)

/-- The comparison of a column with a constant. -/
def vsConst (cat : Catalog) (opfamily : ℕ) (typid consttype : TypeOid) :
    Option (Datum → Datum → ℤ) :=
  if consttype = typid then some datumCmp else cat.opfamilyProc opfamily typid consttype

/-- The strategy with the arguments the other way. -/
def flipStrategy : Strategy → Strategy
  | .less => .greater
  | .lessEqual => .greaterEqual
  | .equal => .equal
  | .greaterEqual => .lessEqual
  | .greater => .less

/-- The constant is a float, read by its own type, and it is NaN. -/
def constNaN (con : Const) : Bool :=
  decide (con.consttype = .float4 ∨ con.consttype = .float8) && con.constvalue.isNaN

/-- The refusals for floats: NaN is the greatest value and not in the statistics. -/
def floatRefuses (phys : PhysType) (st : Strategy) (minD maxD : Datum) (con : Const) : Bool :=
  decide (phys = .float ∨ phys = .double) &&
    (minD.isNaN || maxD.isNaN || decide (st = .greater ∨ st = .greaterEqual) ||
      (decide (st = .equal) && constNaN con))

/-- The test of the extremes at the end of `pqfdw_clause_excludes_group`. -/
def extremesRefute (vs : Datum → ℤ) (st : Strategy) (minD maxD : Datum) : Bool :=
  match st with
  | .less => decide (0 ≤ vs minD)
  | .lessEqual => decide (0 < vs minD)
  | .equal => decide (0 < vs minD) || decide (vs maxD < 0)
  | .greaterEqual => decide (vs maxD < 0)
  | .greater => decide (vs maxD ≤ 0)

/-- The physical types whose statistics are read. -/
def fixedPhys (phys : PhysType) : Bool :=
  decide (phys = .int32 ∨ phys = .int64 ∨ phys = .float ∨ phys = .double)

/-- `pqfdw_clause_excludes_group` -/
def pqfdwClauseExcludesGroup (session : Session) (cat : Catalog) (plan : PqColPlan) (ch : PqChunk)
    (strategy : Strategy) (varLeft : Bool) (con : Const) (opfamily : ℕ) : Bool :=
  match ch.statMin, ch.statMax with
  | some statMin, some statMax =>
    if !fixedPhys plan.expectPhys || con.constisnull || decide (plan.tsShift ≠ .none) ||
      plan.coerce ||
        decide (plan.typid = .timestamp ∧ con.consttype = .timestamptz) then false
    else
      match vsConst cat opfamily plan.typid con.consttype, plainValueToDatum session plan statMin,
          plainValueToDatum session plan statMax with
      | some vs, some (minD, _), some (maxD, _) =>
        let st := if varLeft then strategy else flipStrategy strategy
        if 0 < datumCmp minD maxD then false
        else if floatRefuses plan.expectPhys st minD maxD con then false
        else extremesRefute (fun a => vs a con.constvalue) st minD maxD
      | _, _, _ => false
  | _, _ => false

/-! ### The scan -/

inductive ImpKind where
  | scalar
  | list
  | struct
  deriving DecidableEq

structure ImpTop where
  kind : ImpKind
  attno : ℤ
  firstLeaf : ℕ

/-- `pqfdw_top_for_attno` -/
def pqfdwTopForAttno (tops : List ImpTop) (attno0 : ℤ) : Option ImpTop :=
  tops.find? fun top => decide (top.attno = attno0)

/-- What a clause says is typed as the parser types it. -/
def Typed (cat : Catalog) (opno : ℕ) (typid : TypeOid) (con : Const) (varLeft : Bool) : Prop :=
  cat.operandTypes opno = (if varLeft then (typid, con.consttype) else (con.consttype, typid)) ∧
    (con.constisnull = false → con.constvalue.HasType con.consttype)

/-- A scan: the columns bound to the leaves of the file, and the query's clauses. -/
structure Scan (cat : Catalog) (coercionFunction : TypeOid → Bool) where
  tops : List ImpTop
  leaves : List PqLeafInfo
  plans : List PqColPlan
  quals : List Qual
  bound : ∀ top ∈ tops, top.kind = .scalar → ∃ typid typmod, ∃ leaf ∈ leaves[top.firstLeaf]?,
    ∃ plan ∈ plans[top.firstLeaf]?, bindScalar coercionFunction typid typmod leaf = some plan
  typed : ∀ opno args, .opExpr opno args ∈ quals → ∀ attno con varLeft,
    varAndConst args = some (attno, con, varLeft) → ∀ top ∈ pqfdwTopForAttno tops (attno - 1),
    ∀ plan ∈ plans[top.firstLeaf]?, Typed cat opno plan.typid con varLeft

/-- One clause's round of the loop of `pqfdw_compute_skip`. -/
def qualSkips (session : Session) (cat : Catalog) (tops : List ImpTop) (plans : List PqColPlan)
    (chunks : List PqChunk) : Qual → Bool
  | .other => false
  | .opExpr opno args =>
    match varAndConst args with
    | none => false
    | some (attno, con, varLeft) =>
      if attno < 1 then false
      else
        match pqfdwTopForAttno tops (attno - 1) with
        | none => false
        | some top =>
          if top.kind ≠ .scalar then false
          else
            match firstInterpretation cat opno, plans[top.firstLeaf]?, chunks[top.firstLeaf]? with
            | some (strategy, opfamily), some plan, some ch =>
              pqfdwClauseExcludesGroup session cat plan ch strategy varLeft con opfamily
            | _, _, _ => false

/-- A row group: for each leaf the fields of its statistics and its stored values. -/
structure RowGroup where
  stats : List (List (ℕ × List Byte))
  values : List (List (List Byte))

/-- `pqfdw_compute_skip` -/
def pqfdwComputeSkip {cat : Catalog} {coercionFunction : TypeOid → Bool} (session : Session)
    (scan : Scan cat coercionFunction) (rgs : List RowGroup) : List Bool :=
  rgs.map fun rg => scan.quals.any
    (qualSkips session cat scan.tops scan.plans (rg.stats.map parseStatistics))

/-- `pq_take_value` for a value that is returned, given the type's length coercion. -/
def pqTakeValue (coerceFn : TypeOid → ℤ → Datum → Option Datum) (plan : PqColPlan) (d : Datum) :
    Option Datum :=
  if plan.coerce then coerceFn plan.typid plan.typmod d else some d

/-- The value that the data path returns for a stored value. -/
def returned (session : Session) (coerceFn : TypeOid → ℤ → Datum → Option Datum) (plan : PqColPlan)
    (v : List Byte) : Option Datum :=
  (plainValueToDatum session plan v).bind fun r => pqTakeValue coerceFn plan r.1

/-- The clause is true of a value of the column. -/
def ClauseHolds (cat : Catalog) (opno : ℕ) (con : Const) (varLeft : Bool) (d : Datum) : Prop :=
  con.constisnull = false ∧
    if varLeft then cat.operator opno d con.constvalue else cat.operator opno con.constvalue d

/-! ### What is assumed -/

abbrev TypedDatum (t : TypeOid) := { d : Datum // d.HasType t }

/-- The comparison procedures of the families are orders, except the one that the scan does
not use, they call nothing but NaN equal to NaN, and the operators are theirs. -/
structure Consistent (cat : Catalog) : Prop where
  order : ∀ f t u p, cat.opfamilyProc f t u = some p → ¬ (t = .timestamp ∧ u = .timestamptz) →
    Agrees (fun a b : TypedDatum t => datumCmp a b) fun a (c : TypedDatum u) => p a c
  nan : ∀ f t u p, cat.opfamilyProc f t u = some p → ∀ (a : TypedDatum t) (c : TypedDatum u),
    a.1.isNaN = true → p a c = 0 → c.1.isNaN = true
  left : ∀ opno st f, firstInterpretation cat opno = some (st, f) → ∀ t u p,
    cat.operandTypes opno = (t, u) → vsConst cat f t u = some p →
      ∀ (a : TypedDatum t) (c : TypedDatum u),
    cat.operator opno a c ↔ st.holds (p a c)
  right : ∀ opno st f, firstInterpretation cat opno = some (st, f) → ∀ t u p,
    cat.operandTypes opno = (u, t) → vsConst cat f t u = some p →
      ∀ (a : TypedDatum t) (c : TypedDatum u),
    cat.operator opno c a ↔ st.holds (-p a c)

/-! ### What a plan reads -/

variable {session : Session} {cat : Catalog} {typid : TypeOid} {sc : PqSchemaCol} {plan : PqColPlan}

theorem typid_of_want_int32 (h : pqWantPhysFor typid sc = some sc.physType)
    (hphys : sc.physType = .int32) :
    typid = .numeric ∧ sc.convertedType = ctDecimal ∨ typid = .int2 ∨ typid = .int4 ∨
      typid = .int8 ∨
      typid = .date ∨ typid = .time := by
  cases typid with
  | numeric =>
    rw [hphys] at h
    simp only [pqWantPhysFor, pqWantPhys, hphys] at h
    by_cases hdec : sc.convertedType = ctDecimal
    · exact .inl ⟨rfl, hdec⟩
    · simp [hdec] at h
  | _ => simp_all [pqWantPhysFor, pqWantPhys]

theorem typid_of_want_int64 (h : pqWantPhysFor typid sc = some sc.physType)
    (hphys : sc.physType = .int64) :
    typid = .numeric ∧ (sc.convertedType = ctDecimal ∨ sc.isUnsigned = true) ∨ typid = .int8 ∨
      typid = .time ∨ typid = .timestamp ∨ typid = .timestamptz := by
  cases typid with
  | numeric =>
    rw [hphys] at h
    simp only [pqWantPhysFor, pqWantPhys, hphys] at h
    by_cases hun : sc.isUnsigned = true
    · exact .inl ⟨rfl, .inr hun⟩
    · by_cases hdec : sc.convertedType = ctDecimal
      · exact .inl ⟨rfl, .inl hdec⟩
      · simp [hun, hdec] at h
  | _ => simp_all [pqWantPhysFor, pqWantPhys]

theorem typid_of_want_float (h : pqWantPhysFor typid sc = some sc.physType)
    (hphys : sc.physType = .float) :
    typid = .float4 := by
  cases typid with
  | time =>
    rw [hphys] at h
    by_cases hms : sc.timeUnit = .millis ∧ sc.isTimestamp = false <;>
      simp [pqWantPhysFor, pqWantPhys, hms] at h
  | _ => simp_all [pqWantPhysFor, pqWantPhys]

theorem typid_of_want_double (h : pqWantPhysFor typid sc = some sc.physType)
    (hphys : sc.physType = .double) :
    typid = .float8 := by
  cases typid with
  | time =>
    rw [hphys] at h
    by_cases hms : sc.timeUnit = .millis ∧ sc.isTimestamp = false <;>
      simp [pqWantPhysFor, pqWantPhys, hms] at h
  | _ => simp_all [pqWantPhysFor, pqWantPhys]

variable {bs : List Byte}

theorem takeBytes_eq {n : ℕ} {r : List Byte × List Byte} (h : takeBytes n bs = some r) :
    r.1 = bs.take n := by
  unfold takeBytes at h
  split_ifs at h
  cases h
  rfl

variable {r : Datum × List Byte}

theorem plain_int32 (hphys : plan.expectPhys = .int32)
    (h : plainValueToDatum session plan bs = some r) :
    plainInt32 plan (signedOf 4 (bs.take 4)) = some r.1 := by
  rw [plainValueToDatum, hphys] at h
  obtain ⟨b, hb, h⟩ := Option.bind_eq_some_iff.mp h
  obtain ⟨d, hd, rfl⟩ := Option.map_eq_some_iff.mp h
  rw [← takeBytes_eq hb]
  exact hd

theorem plain_int64 (hphys : plan.expectPhys = .int64)
    (h : plainValueToDatum session plan bs = some r) :
    plainInt64 session plan (signedOf 8 (bs.take 8)) = some r.1 := by
  rw [plainValueToDatum, hphys] at h
  obtain ⟨b, hb, h⟩ := Option.bind_eq_some_iff.mp h
  obtain ⟨d, hd, rfl⟩ := Option.map_eq_some_iff.mp h
  rw [← takeBytes_eq hb]
  exact hd

theorem plain_float (hphys : plan.expectPhys = .float) (ht : plan.typid = .float4)
    (h : plainValueToDatum session plan bs = some r) :
    r.1 = .float4 (BitVec.ofNat 32 (leNat (bs.take 4))) := by
  rw [plainValueToDatum, hphys] at h
  obtain ⟨b, hb, rfl⟩ := Option.map_eq_some_iff.mp h
  rw [← takeBytes_eq hb, ht]
  rfl

theorem plain_double (hphys : plan.expectPhys = .double)
    (h : plainValueToDatum session plan bs = some r) :
    r.1 = .float8 (BitVec.ofNat 64 (leNat (bs.take 8))) := by
  rw [plainValueToDatum, hphys] at h
  obtain ⟨b, hb, rfl⟩ := Option.map_eq_some_iff.mp h
  rw [← takeBytes_eq hb]

variable {d : Datum} {v : ℤ}

theorem timeDatum_int {unit : TimeUnit} (h : timeDatum unit v = some d) : ∃ n, d = .int n := by
  unfold timeDatum at h
  split at h
  · cases h
  · split at h <;> cases h
    exact ⟨_, rfl⟩

theorem timestampDatum_int (h : timestampDatum session plan v = some d) : ∃ n, d = .int n := by
  unfold timestampDatum at h
  split at h
  · cases h
  · dsimp only at h
    split_ifs at h
    unfold timestampShifted at h
    split at h
    · cases h
    · split at h
      · cases h
        exact ⟨_, rfl⟩
      · obtain ⟨t, _, rfl⟩ := Option.map_eq_some_iff.mp h
        exact ⟨_, rfl⟩

/-- What is read as a decimal is a `numeric`, and every other integer is one. -/
theorem plainInt32_kind (h : plainInt32 plan v = some d) :
    (plan.isDecimal = true ∧ ∃ u s, d = .numeric u s) ∨ plan.isDecimal = false ∧
      ∃ n, d = .int n := by
  unfold plainInt32 at h
  dsimp only at h
  split at h
  · next hdec =>
    unfold pqIntDecimalToNumeric pqDecimalToNumeric at h
    split at h
    · cases h
    · split at h <;> cases h
      exact .inl ⟨hdec, _, _, rfl⟩
  · next hdec =>
    refine .inr ⟨Bool.not_eq_true _ ▸ hdec, ?_⟩
    split at h
    · cases h
      exact ⟨_, rfl⟩
    · split at h
      · cases h
      · split at h
        · split at h <;> cases h
          exact ⟨_, rfl⟩
        · exact timeDatum_int h
        · unfold dateDatum at h
          dsimp only at h
          split at h <;> cases h
          exact ⟨_, rfl⟩
        · cases h
          exact ⟨_, rfl⟩

theorem plainInt64_kind (h : plainInt64 session plan v = some d) :
    ((plan.isDecimal = true ∨ plan.isUnsigned = true ∧ plan.typid = .numeric) ∧
      ∃ u s, d = .numeric u s) ∨
    (plan.isDecimal = false ∧ ¬ (plan.isUnsigned = true ∧ plan.typid = .numeric)) ∧
      ∃ n, d = .int n := by
  unfold plainInt64 at h
  split at h
  · next hdec =>
    unfold pqIntDecimalToNumeric pqDecimalToNumeric at h
    split at h
    · cases h
    · split at h <;> cases h
      exact .inl ⟨.inl hdec, _, _, rfl⟩
  · next hdec =>
    split at h
    · next hun =>
      cases h
      exact .inl ⟨.inr hun, _, _, rfl⟩
    · next hun =>
      refine .inr ⟨⟨Bool.not_eq_true _ ▸ hdec, hun⟩, ?_⟩
      split_ifs at h
      split at h
      · exact timestampDatum_int h
      · exact timestampDatum_int h
      · exact timeDatum_int h
      · cases h
        exact ⟨_, rfl⟩

/-- A value that is read is one of the column's type. -/
theorem plain_hasType (hbound : BoundTo typid sc plan) (hfixed : fixedPhys plan.expectPhys = true)
    (h : plainValueToDatum session plan bs = some r) :
    r.1.HasType plan.typid := by
  have hwant := hbound.want
  have hdec := hbound.decimal
  have hunsigned := hbound.unsigned
  rw [hbound.typid_eq]
  rcases of_decide_eq_true hfixed with hphys | hphys | hphys | hphys
  · have htypes := typid_of_want_int32 hwant (hbound.phys ▸ hphys)
    rcases plainInt32_kind (plain_int32 hphys h) with ⟨hd, u, s, heq⟩ | ⟨hd, n, heq⟩
    · rw [heq]
      rw [hd] at hdec
      exact (of_decide_eq_true hdec.symm).1
    · rw [heq]
      rw [hd] at hdec
      rcases htypes with ⟨rfl, hct⟩ | ht | ht | ht | ht | ht
      · simp [hct] at hdec
      all_goals simp [Datum.HasType, ht]
  · have htypes := typid_of_want_int64 hwant (hbound.phys ▸ hphys)
    rw [show sc.physType = .int64 from hbound.phys ▸ hphys] at hunsigned
    rcases plainInt64_kind (plain_int64 hphys h) with ⟨hd, u, s, heq⟩ | ⟨⟨hd, hu⟩, n, heq⟩
    · rw [heq]
      rcases hd with hd | hd
      · rw [hd] at hdec
        exact (of_decide_eq_true hdec.symm).1
      · rw [← hbound.typid_eq]
        exact hd.2
    · rw [heq]
      rw [hd] at hdec
      rw [hbound.typid_eq] at hu
      rcases htypes with ⟨rfl, hct | hun⟩ | ht | ht | ht | ht
      · simp [hct] at hdec
      · simp [hun] at hunsigned
        exact absurd ⟨hunsigned, rfl⟩ hu
      all_goals simp [Datum.HasType, ht]
  · have ht := typid_of_want_float hwant (hbound.phys ▸ hphys)
    rw [plain_float hphys (hbound.typid_eq.trans ht) h]
    exact ht
  · have ht := typid_of_want_double hwant (hbound.phys ▸ hphys)
    rw [plain_double hphys h]
    exact ht

/-! ### The extremes bound what is read -/

/-- The key of a value that is read from a number of a fixed width, and whether it is NaN. -/
theorem datumKey_plain_int (session : Session) (hbound : BoundTo typid sc plan)
    (hshift : plan.tsShift = .none)
    (hint : plan.expectPhys = .int32 ∨ plan.expectPhys = .int64) :
    ∃ m : ℤ, ∀ bs r, plainValueToDatum session plan bs = some r → ∃ v, (-m ≤ v ∧ v < m) ∧
      (∀ order, physKey plan.expectPhys order bs = inOrder order m v) ∧
      datumKey r.1 = finite (plainKey plan (inOrder (readOrder plan) m v)) := by
  rcases hint with hphys | hphys
  · refine ⟨128 * 256 ^ 3, fun bs r h =>
      ⟨signedOf 4 (bs.take 4), signedOf_range (by decide) _, ?_, ?_⟩⟩
    · intro order
      rw [hphys]
      rfl
    · exact datumKey_plainInt32 hbound hphys (signedOf_range (by decide) _) (plain_int32 hphys h)
  · refine ⟨128 * 256 ^ 7, fun bs r h =>
      ⟨signedOf 8 (bs.take 8), signedOf_range (by decide) _, ?_, ?_⟩⟩
    · intro order
      rw [hphys]
      rfl
    · exact datumKey_plainInt64 hbound hphys hshift (signedOf_range (by decide) _)
        (plain_int64 hphys h)

/-- A leaf whose integers are nanoseconds is ordered and read as signed. -/
theorem nanos_signed (hbound : BoundTo typid sc plan) {order : SortOrder} (hown : OwnOrder sc order)
    (hnanos : plan.timeUnit = .nanos) (htime : plan.typid = .time ∨ plan.typid = .timestamp ∨
      plan.typid = .timestamptz) : order = .signed ∧ readOrder plan = .signed := by
  constructor
  · cases order with
    | signed => rfl
    | unsigned =>
      have hunit := hown.2
      rw [← hbound.unit, hnanos] at hunit
      cases hunit
  · unfold readOrder
    rw [if_neg]
    rintro ⟨_, _, h | h⟩
    · rw [h.1] at htime
      simp at htime
    · rw [h.1] at htime
      simp at htime

variable {a b : Datum × List Byte}

/-- Extremes that are not inverted bound the values of the leaf between them. -/
theorem plain_int_between (hbound : BoundTo typid sc plan) (hshift : plan.tsShift = .none)
    (hint : plan.expectPhys = .int32 ∨ plan.expectPhys = .int64) {order : SortOrder}
    (hown : OwnOrder sc order) {mn mx : List Byte}
    (ha : plainValueToDatum session plan mn = some a)
    (hb : plainValueToDatum session plan mx = some b)
    (hr : plainValueToDatum session plan bs = some r) (hab : datumKey a.1 ≤ datumKey b.1)
    (hlow : physKey plan.expectPhys order mn ≤ physKey plan.expectPhys order bs)
    (hhigh : physKey plan.expectPhys order bs ≤ physKey plan.expectPhys order mx) :
    datumKey a.1 ≤ datumKey r.1 ∧ datumKey r.1 ≤ datumKey b.1 := by
  obtain ⟨m, hkey⟩ := datumKey_plain_int session hbound hshift hint
  obtain ⟨va, hva, hpa, hka⟩ := hkey mn a ha
  obtain ⟨vb, hvb, hpb, hkb⟩ := hkey mx b hb
  obtain ⟨v, hv, hp, hk⟩ := hkey bs r hr
  rw [hpa, hp] at hlow
  rw [hp, hpb] at hhigh
  rw [hka, hkb, finite_le_finite] at hab
  rw [hka, hkb, hk, finite_le_finite, finite_le_finite]
  by_cases hnanos : plan.timeUnit = .nanos ∧ (plan.typid = .time ∨ plan.typid = .timestamp ∨
      plan.typid = .timestamptz)
  · -- nanoseconds are rounded, but taken in one order only
    obtain ⟨ho, hread⟩ := nanos_signed hbound hown hnanos.1 hnanos.2
    rw [ho] at hlow hhigh
    rw [hread]
    exact ⟨plainKey_mono plan hlow, plainKey_mono plan hhigh⟩
  · have hstrict : plan.timeUnit = .nanos → plan.isDecimal = false →
        plan.typid ≠ .time ∧ plan.typid ≠ .timestamp ∧ plan.typid ≠ .timestamptz := by
      intro hu _
      refine ⟨fun ht => hnanos ⟨hu, ?_⟩, fun ht => hnanos ⟨hu, ?_⟩, fun ht => hnanos ⟨hu, ?_⟩⟩
      · exact .inl ht
      · exact .inr (.inl ht)
      · exact .inr (.inr ht)
    have hread : inOrder (readOrder plan) m va ≤ inOrder (readOrder plan) m vb := by
      by_contra hlt
      exact absurd hab (not_le.mpr (plainKey_strict hstrict (not_le.mp hlt)))
    obtain ⟨h1, h2⟩ := inOrder_between hva hv hvb hlow hhigh hread
    exact ⟨plainKey_mono plan h1, plainKey_mono plan h2⟩

theorem datum_plain_float (hbound : BoundTo typid sc plan)
    (hfloat : plan.expectPhys = .float ∨ plan.expectPhys = .double) (order : SortOrder)
    (h : plainValueToDatum session plan bs = some r) :
    datumKey r.1 = finite (physKey plan.expectPhys order bs) ∧
      r.1.isNaN = physNaN plan.expectPhys bs := by
  rcases hfloat with hphys | hphys
  · have ht := typid_of_want_float hbound.want (hbound.phys ▸ hphys)
    have hlt : leNat (bs.take 4) < 2 ^ 32 := by
      have hlt := leNat_lt (bs.take 4)
      have hle : 256 ^ (bs.take 4).length ≤ 256 ^ 4 :=
        Nat.pow_le_pow_right (by decide) (length_take_le 4 bs)
      exact Nat.lt_of_lt_of_le hlt (by simpa using hle)
    have hbits : (BitVec.ofNat 32 (leNat (bs.take 4))).toNat = leNat (bs.take 4) := by
      rw [BitVec.toNat_ofNat]
      exact Nat.mod_eq_of_lt hlt
    rw [plain_float hphys (hbound.typid_eq.trans ht) h, hphys]
    simp only [datumKey, physKey, Datum.isNaN, physNaN, hbits, and_self]
  · have hlt : leNat (bs.take 8) < 2 ^ 64 := by
      have hlt := leNat_lt (bs.take 8)
      have hle : 256 ^ (bs.take 8).length ≤ 256 ^ 8 :=
        Nat.pow_le_pow_right (by decide) (length_take_le 8 bs)
      exact Nat.lt_of_lt_of_le hlt (by simpa using hle)
    have hbits : (BitVec.ofNat 64 (leNat (bs.take 8))).toNat = leNat (bs.take 8) := by
      rw [BitVec.toNat_ofNat]
      exact Nat.mod_eq_of_lt hlt
    rw [plain_double hphys h, hphys]
    simp only [datumKey, physKey, Datum.isNaN, physNaN, hbits, and_self]

/-- NaN is above every value of its type. -/
theorem datumKey_le_nan {a : Datum} (ha : a.HasType plan.typid) (hd : d.HasType plan.typid)
    (hnan : d.isNaN = true) : datumKey a ≤ datumKey d := by
  cases d with
  | float4 bits =>
    rw [show plan.typid = .float4 from hd] at ha
    cases a with
    | float4 bits' => exact finite_le_finite.mpr (cast_le.mpr (Ieee.orderKey_le_nan hnan))
    | other _ => exact absurd ha (by simp [Datum.HasType])
    | _ => simp [Datum.HasType] at ha
  | float8 bits =>
    rw [show plan.typid = .float8 from hd] at ha
    cases a with
    | float8 bits' => exact finite_le_finite.mpr (cast_le.mpr (Ieee.orderKey_le_nan hnan))
    | other _ => exact absurd ha (by simp [Datum.HasType])
    | _ => simp [Datum.HasType] at ha
  | _ => cases hnan

/-! ### The comparison with the constant -/

/-- What a comparison in use keeps. -/
structure VsOk (t u : TypeOid) (vs : Datum → Datum → ℤ) : Prop where
  order : Agrees (fun a b : TypedDatum t => datumCmp a b) fun a (c : TypedDatum u) => vs a c
  nan : ∀ (a : TypedDatum t) (c : TypedDatum u), a.1.isNaN = true → vs a c = 0 → c.1.isNaN = true

theorem isNaN_of_datumCmp {t : TypeOid} {a c : TypedDatum t} (hnan : a.1.isNaN = true)
    (heq : datumCmp a c = 0) : c.1.isNaN = true := by
  have hle : datumKey a.1 ≤ datumKey c.1 := datumCmp_nonpos.mp (le_of_eq heq)
  have hge : datumKey c.1 ≤ datumKey a.1 := by
    rw [← datumCmp_nonpos, datumCmp_swap, heq]
    decide
  have hkey := le_antisymm hge hle
  obtain ⟨a, ha⟩ := a
  obtain ⟨c, hc⟩ := c
  cases a with
  | float4 bits =>
    rw [show t = .float4 from ha] at hc
    cases c with
    | float4 bits' =>
      apply Ieee.isNaN_of_orderKey
      rw [← Ieee.orderKey_nan hnan]
      exact cast_injective (α := ℚ) (finite_injective hkey)
    | other _ => exact absurd hc (by simp [Datum.HasType])
    | _ => simp [Datum.HasType] at hc
  | float8 bits =>
    rw [show t = .float8 from ha] at hc
    cases c with
    | float8 bits' =>
      apply Ieee.isNaN_of_orderKey
      rw [← Ieee.orderKey_nan hnan]
      exact cast_injective (α := ℚ) (finite_injective hkey)
    | other _ => exact absurd hc (by simp [Datum.HasType])
    | _ => simp [Datum.HasType] at hc
  | _ => cases hnan

variable {vs : Datum → Datum → ℤ}

theorem vsOk (hc : Consistent cat) {f : ℕ} {t u : TypeOid}
    (h : vsConst cat f t u = some vs) (hpair : ¬ (t = .timestamp ∧ u = .timestamptz)) :
    VsOk t u vs := by
  unfold vsConst at h
  split at h
  · next heq =>
    cases h
    cases heq
    have htotal : TotalCmp fun a b : TypedDatum t => datumCmp a b :=
      ⟨fun a b => totalCmp_datumCmp.swap a b, fun a b c => totalCmp_datumCmp.trans a b c⟩
    exact ⟨htotal.agrees, fun a c => isNaN_of_datumCmp⟩
  · exact ⟨hc.order f t u vs h hpair, hc.nan f t u vs h⟩

theorem flipStrategy_holds (st : Strategy) (x : ℤ) : (flipStrategy st).holds x ↔ st.holds (-x) := by
  cases st with
  | less => exact neg_neg_iff_pos.symm
  | lessEqual => exact Int.neg_nonpos_iff x |>.symm
  | equal => exact neg_eq_zero.symm
  | greaterEqual => exact neg_nonneg.symm
  | greater => exact neg_pos.symm

/-- Extremes refute a strategy for the values between them, and for a NaN above them if the
strategy does not ask for what is above. -/
theorem extremesRefute_sound {t u : TypeOid} (hvs : VsOk t u vs) {st : Strategy}
    (a b d : TypedDatum t) (c : TypedDatum u) (hlow : datumKey a.1 ≤ datumKey d.1)
    (hhigh : datumKey d.1 ≤ datumKey b.1 ∨ d.1.isNaN = true ∧ st ≠ .greater ∧ st ≠ .greaterEqual ∧
      (st = .equal → c.1.isNaN = false))
    (h : extremesRefute (fun x => vs x c) st a b = true) : ¬ st.holds (vs d c) := by
  have hlow' : datumCmp a d ≤ 0 := datumCmp_nonpos.mpr hlow
  have hhigh' : ∀ st', st = st' → (st' = .greater ∨ st' = .greaterEqual) → datumCmp d b ≤ 0 := by
    intro st' hst hup
    rcases hhigh with hle | ⟨_, hgt, hge, _⟩
    · exact datumCmp_nonpos.mpr hle
    · rw [hst] at hgt hge
      rcases hup with rfl | rfl
      · exact absurd rfl hgt
      · exact absurd rfl hge
  unfold extremesRefute at h
  cases hst : st with
  | less =>
    rw [hst] at h
    exact not_lt.mpr (hvs.order.nonneg hlow' (of_decide_eq_true h))
  | lessEqual =>
    rw [hst] at h
    exact not_le.mpr (hvs.order.pos hlow' (of_decide_eq_true h))
  | equal =>
    rw [hst] at h
    rcases Bool.or_eq_true_iff.mp h with hpos | hneg
    · exact ne_of_gt (hvs.order.pos hlow' (of_decide_eq_true hpos))
    · rcases hhigh with hle | ⟨hnan, _, _, hc⟩
      · exact ne_of_lt (hvs.order.neg (datumCmp_nonpos.mpr hle) (of_decide_eq_true hneg))
      · -- nothing but NaN is equal to NaN
        intro heq
        have := hvs.nan d c hnan heq
        rw [hc hst] at this
        cases this
  | greaterEqual =>
    rw [hst] at h
    exact not_le.mpr (hvs.order.neg (hhigh' _ hst (.inr rfl)) (of_decide_eq_true h))
  | greater =>
    rw [hst] at h
    exact not_lt.mpr (hvs.order.nonpos (hhigh' _ hst (.inl rfl)) (of_decide_eq_true h))

/-- A float is a constant by its own type. -/
theorem constNaN_of_isNaN {con : Const} (ht : con.constvalue.HasType con.consttype)
    (h : con.constvalue.isNaN = true) : constNaN con = true := by
  unfold constNaN
  rw [h, Bool.and_true, decide_eq_true_eq]
  cases hv : con.constvalue with
  | float4 b =>
    rw [hv] at ht
    exact .inl ht
  | float8 b =>
    rw [hv] at ht
    exact .inr ht
  | _ =>
    rw [hv] at h
    cases h

variable {values : List (List Byte)}

/-- The extremes of a group that is excluded bound what is read, NaN apart. -/
theorem plain_between (hbound : BoundTo typid sc plan) (hshift : plan.tsShift = .none)
    (hfixed : fixedPhys plan.expectPhys = true) {ch : PqChunk}
    (hstats : StatsBound sc ch values) {mn mx : List Byte} (hmn : ch.statMin = some mn)
    (hmx : ch.statMax = some mx)
    (ha : plainValueToDatum session plan mn = some a)
    (hb : plainValueToDatum session plan mx = some b)
    (hab : datumKey a.1 ≤ datumKey b.1)
    (hnan : (plan.expectPhys = .float ∨ plan.expectPhys = .double) →
      a.1.isNaN = false ∧ b.1.isNaN = false) (hmem : bs ∈ values)
    (hr : plainValueToDatum session plan bs = some r) :
    datumKey a.1 ≤ datumKey r.1 ∧ (datumKey r.1 ≤ datumKey b.1 ∨
      (plan.expectPhys = .float ∨ plan.expectPhys = .double) ∧ r.1.isNaN = true) := by
  obtain ⟨order, hown, hstats⟩ := hstats
  rw [← hbound.phys] at hstats
  have hcases := of_decide_eq_true hfixed
  rw [← or_assoc] at hcases
  rcases hcases with hint | hfloat
  · have hno : ∀ bs, physNaN plan.expectPhys bs = false := by
      intro bs
      rcases hint with hphys | hphys <;> rw [hphys] <;> rfl
    obtain ⟨hlow, hhigh⟩ := hstats bs hmem (hno bs)
    obtain ⟨h1, h2⟩ := plain_int_between hbound hshift hint hown ha hb hr hab
      (hlow mn hmn (hno mn)) (hhigh mx hmx (hno mx))
    exact ⟨h1, .inl h2⟩
  · obtain ⟨hka, hna⟩ := datum_plain_float hbound hfloat order ha
    obtain ⟨hkb, hnb⟩ := datum_plain_float hbound hfloat order hb
    obtain ⟨hkr, hnr⟩ := datum_plain_float hbound hfloat order hr
    cases hrn : r.1.isNaN with
    | true =>
      refine ⟨?_, .inr ⟨hfloat, rfl⟩⟩
      exact datumKey_le_nan (plain_hasType hbound hfixed ha) (plain_hasType hbound hfixed hr) hrn
    | false =>
      rw [hrn] at hnr
      obtain ⟨hlow, hhigh⟩ := hstats bs hmem hnr.symm
      have hl := hlow mn hmn (hna.symm.trans (hnan hfloat).1)
      have hh := hhigh mx hmx (hnb.symm.trans (hnan hfloat).2)
      rw [hka, hkb, hkr, finite_le_finite, finite_le_finite]
      exact ⟨by exact_mod_cast hl, .inl (by exact_mod_cast hh)⟩

/-- The test of one clause on one group. -/
theorem clauseExcludesGroup_sound (hc : Consistent cat) (hbound : BoundTo typid sc plan)
    {ch : PqChunk} (hstats : StatsBound sc ch values) {strategy : Strategy} {varLeft : Bool}
    {con : Const} (hcon : con.constisnull = false → con.constvalue.HasType con.consttype)
    {opfamily : ℕ}
    (h : pqfdwClauseExcludesGroup session cat plan ch strategy varLeft con opfamily = true) :
    plan.coerce = false ∧ ∃ vs, vsConst cat opfamily plan.typid con.consttype = some vs ∧
      ∀ bs ∈ values, ∀ r, plainValueToDatum session plan bs = some r → r.1.HasType plan.typid ∧
        ¬ (if varLeft then strategy else flipStrategy strategy).holds (vs r.1 con.constvalue) := by
  unfold pqfdwClauseExcludesGroup at h
  split at h
  · next statMin statMax hmn hmx =>
    split at h
    · cases h
    · next hok =>
      simp only [Bool.or_eq_true, Bool.not_eq_true', decide_eq_true_eq, not_or, Bool.not_eq_false,
        Bool.not_eq_true, not_not] at hok
      obtain ⟨⟨⟨⟨hfixed, hnull⟩, hshift⟩, hcoerce⟩, hpair⟩ := hok
      split at h
      · next vs minD rest maxD rest' hvs hmin hmax =>
        dsimp only at h
        generalize hst : (if varLeft then strategy else flipStrategy strategy) = st at h ⊢
        split at h
        · cases h
        · next hinv =>
          split_ifs at h with hfloat
          refine ⟨hcoerce, vs, hvs, ?_⟩
          intro bs hbs r hr
          have hta := plain_hasType hbound hfixed hmin
          have htb := plain_hasType hbound hfixed hmax
          have htr := plain_hasType hbound hfixed hr
          have hab : datumKey minD ≤ datumKey maxD := datumCmp_nonpos.mp (not_lt.mp hinv)
          -- what the refusals for floats leave
          have hrefuse : (plan.expectPhys = .float ∨ plan.expectPhys = .double) →
              (minD.isNaN = false ∧ maxD.isNaN = false) ∧ st ≠ .greater ∧ st ≠ .greaterEqual ∧
                (st = .equal → constNaN con = false) := by
            intro hphys
            unfold floatRefuses at hfloat
            rw [decide_eq_true hphys, Bool.true_and] at hfloat
            simp only [Bool.or_eq_true, decide_eq_true_eq, Bool.and_eq_true, not_or, not_and,
              Bool.not_eq_true] at hfloat
            obtain ⟨⟨⟨hna, hnb⟩, hgt, hge⟩, heq⟩ := hfloat
            exact ⟨⟨hna, hnb⟩, hgt, hge, heq⟩
          obtain ⟨hlow, hhigh⟩ := plain_between hbound hshift hfixed hstats hmn hmx hmin hmax hab
            (fun hphys => (hrefuse hphys).1) hbs hr
          refine ⟨htr, ?_⟩
          refine extremesRefute_sound (vsOk hc hvs hpair) ⟨minD, hta⟩ ⟨maxD, htb⟩ ⟨r.1, htr⟩
            ⟨con.constvalue, hcon hnull⟩ hlow ?_ h
          rcases hhigh with hle | ⟨hphys, hnan⟩
          · exact .inl hle
          · obtain ⟨_, hgt, hge, heq⟩ := hrefuse hphys
            refine .inr ⟨hnan, hgt, hge, fun hst => ?_⟩
            by_contra hcn
            have hcn' := constNaN_of_isNaN (hcon hnull) (Bool.not_eq_false _ ▸ hcn)
            rw [heq hst] at hcn'
            cases hcn'
      · cases h
  · cases h

/-! ### The row groups -/

variable {coercionFunction : TypeOid → Bool} {coerceFn : TypeOid → ℤ → Datum → Option Datum}

/-- The statistics of the leaves of scalar columns bound their values. -/
def RowGroup.Bounded (rg : RowGroup) (scan : Scan cat coercionFunction) : Prop :=
  ∀ top ∈ scan.tops, top.kind = .scalar → ∀ leaf ∈ scan.leaves[top.firstLeaf]?,
    ∀ stats ∈ rg.stats[top.firstLeaf]?, ∀ values ∈ rg.values[top.firstLeaf]?,
      StatsBound leaf.sc (parseStatistics stats) values

/-- The clause compares a scalar column with a constant, and no value that the data path
returns for the column satisfies it. -/
def Refuted (session : Session) (coerceFn : TypeOid → ℤ → Datum → Option Datum)
    (scan : Scan cat coercionFunction) (rg : RowGroup) (q : Qual) : Prop :=
  ∃ opno args attno con varLeft, q = .opExpr opno args ∧
    varAndConst args = some (attno, con, varLeft) ∧
    ∃ top ∈ pqfdwTopForAttno scan.tops (attno - 1), top.kind = .scalar ∧
      ∃ plan ∈ scan.plans[top.firstLeaf]?, ∀ values ∈ rg.values[top.firstLeaf]?, ∀ v ∈ values,
        ∀ d ∈ returned session coerceFn plan v, ¬ ClauseHolds cat opno con varLeft d

theorem refuted_of_qualSkips (scan : Scan cat coercionFunction) (hc : Consistent cat)
    {rg : RowGroup}
    (hstats : rg.Bounded scan) {q : Qual} (hq : q ∈ scan.quals)
    (h : qualSkips session cat scan.tops scan.plans (rg.stats.map parseStatistics) q = true) :
    Refuted session coerceFn scan rg q := by
  cases q with
  | other => cases h
  | opExpr opno args =>
    simp only [qualSkips] at h
    split at h
    · cases h
    · next attno con varLeft hargs =>
      split_ifs at h
      split at h
      · cases h
      · next top htop =>
        split_ifs at h with hkind
        rw [not_not] at hkind
        split at h
        · next strategy opfamily plan ch hinterp hplan hch =>
          have hmem : top ∈ scan.tops := mem_of_find?_eq_some htop
          obtain ⟨typid, typmod, leaf, hleaf, plan', hplan', hbind⟩ := scan.bound top hmem hkind
          rw [hplan] at hplan'
          cases hplan'
          have hbound := boundTo_of_bindScalar hbind
          rw [getElem?_map, Option.map_eq_some_iff] at hch
          obtain ⟨stats, hst, rfl⟩ := hch
          obtain ⟨hoptypes, hcon⟩ :=
            scan.typed opno args hq attno con varLeft hargs top htop plan hplan
          refine ⟨opno, args, attno, con, varLeft, rfl, hargs, top, htop, hkind, plan, hplan, ?_⟩
          intro values hvalues v hv d hd
          have hb := hstats top hmem hkind leaf hleaf stats hst values hvalues
          obtain ⟨hcoerce, vs, hvs, hno⟩ := clauseExcludesGroup_sound hc hbound hb hcon h
          -- without a coercion the value is returned as it is read
          obtain ⟨r, hr, htake⟩ := Option.bind_eq_some_iff.mp hd
          rw [pqTakeValue, if_neg (by rw [hcoerce]; decide)] at htake
          cases htake
          obtain ⟨htype, hnot⟩ := hno v hv r hr
          rintro ⟨hnull, hop⟩
          apply hnot
          cases varLeft with
          | true =>
            rw [if_pos rfl] at hop hoptypes ⊢
            exact (hc.left opno strategy opfamily hinterp plan.typid con.consttype vs hoptypes hvs
              ⟨r.1, htype⟩ ⟨con.constvalue, hcon hnull⟩).mp hop
          | false =>
            rw [if_neg Bool.false_ne_true] at hop hoptypes ⊢
            rw [flipStrategy_holds]
            exact (hc.right opno strategy opfamily hinterp plan.typid con.consttype vs hoptypes hvs
              ⟨r.1, htype⟩ ⟨con.constvalue, hcon hnull⟩).mp hop
        · cases h

/-- **A row group that is skipped has no row that the query asks for.**  The statistics of
every group bound its stored values, NaN apart, and the comparison procedures are orders
that go with their operators.  Then a group that is marked has a clause that no value the
data path would return satisfies. -/
theorem pqfdwComputeSkip_sound (session : Session) (coerceFn : TypeOid → ℤ → Datum → Option Datum)
    (scan : Scan cat coercionFunction) (hc : Consistent cat) (rgs : List RowGroup)
    (hstats : ∀ rg ∈ rgs, rg.Bounded scan) (i : ℕ)
    (hskip : (pqfdwComputeSkip session scan rgs)[i]? = some true) :
    ∃ rg ∈ rgs[i]?, ∃ q ∈ scan.quals, Refuted session coerceFn scan rg q := by
  unfold pqfdwComputeSkip at hskip
  rw [getElem?_map, Option.map_eq_some_iff] at hskip
  obtain ⟨rg, hrg, hany⟩ := hskip
  obtain ⟨q, hq, hskips⟩ := any_eq_true.mp hany
  exact ⟨rg, hrg, q, hq, refuted_of_qualSkips scan hc (hstats rg (mem_of_getElem? hrg)) hq hskips⟩

/-! A `bigint` column bound to unsigned 32-bit integers, and the clause `5 > column`. -/

/-- The comparison operators of `bigint` with `integer`: `>` is operator 5. -/
def int8Catalog : Catalog where
  opInterpretation opno := if opno = 5 then [(6, 1), (5, 1976)] else []
  opfamilyProc f t u := if f = 1976 ∧ t = .int8 ∧ u = .int4 then some datumCmp else none
  operandTypes _ := (.int4, .int8)
  operator _ a b := datumKey b < datumKey a

def uint32Leaf : PqLeafInfo :=
  ⟨⟨.int32, 13, .none, false, true, true, 0, 0, 0⟩, 1, 0⟩

def uint32Scan : Scan int8Catalog (fun _ => false) where
  tops := [⟨.scalar, 0, 0⟩]
  leaves := [uint32Leaf]
  plans := [pqPlanSetTypmod (fun _ => false) (pqPlanBindSchema .int8 .int32 uint32Leaf.sc)
    (-1) uint32Leaf.sc]
  quals := [.other, .opExpr 5 [.const ⟨.int4, false, .int 5⟩, .var 1]]
  bound := by
    intro top htop _
    cases mem_singleton.mp htop
    exact ⟨.int8, -1, uint32Leaf, rfl, _, rfl, rfl⟩
  typed := by
    intro opno args hq attno con varLeft hargs top htop plan hplan
    simp only [mem_cons, not_mem_nil, or_false, reduceCtorEq, false_or, Qual.opExpr.injEq] at hq
    obtain ⟨rfl, rfl⟩ := hq
    cases hargs
    rw [← Option.some.inj htop] at hplan
    cases hplan
    exact ⟨rfl, fun _ => .inr (.inl rfl)⟩

theorem consistent_int8Catalog : Consistent int8Catalog := by
  have hinterp : ∀ opno st f, firstInterpretation int8Catalog opno = some (st, f) → st = .greater ∧
    f = 1976 := by
    intro opno st f h
    unfold firstInterpretation int8Catalog at h
    dsimp only at h
    split at h
    · cases h
      exact ⟨rfl, rfl⟩
    · cases h
  have hproc : ∀ f t u p, int8Catalog.opfamilyProc f t u = some p → (t = .int8 ∧ u = .int4) ∧
    p = datumCmp := by
    intro f t u p h
    simp only [int8Catalog] at h
    split_ifs at h with hcond
    cases h
    exact ⟨hcond.2, rfl⟩
  constructor
  · intro f t u p h _
    obtain ⟨_, rfl⟩ := hproc f t u p h
    intro a a' c haa
    exact totalCmp_datumCmp.agrees a.1 a'.1 c.1 haa
  · intro f t u p h a c hnan
    obtain ⟨⟨rfl, _⟩, _⟩ := hproc f t u p h
    obtain ⟨a, ha⟩ := a
    cases a with
    | float4 b | float8 b => simp [Datum.HasType] at ha
    | _ => cases hnan
  · intro opno st f h t u p htypes hvs a c
    obtain ⟨rfl, rfl⟩ := hinterp opno st f h
    cases htypes
    have hp : p = datumCmp := by
      unfold vsConst at hvs
      rw [if_neg (by decide)] at hvs
      exact (hproc _ _ _ _ hvs).2
    rw [hp]
    exact datumCmp_pos.symm
  · intro opno st f h t u p htypes hvs a c
    obtain ⟨rfl, rfl⟩ := hinterp opno st f h
    cases htypes
    have hp : p = datumCmp := by
      unfold vsConst at hvs
      rw [if_neg (by decide)] at hvs
      exact (hproc _ _ _ _ hvs).2
    rw [hp, ← datumCmp_swap]
    exact datumCmp_pos.symm

/-- A group of 7 and 4294967295, whose extremes an old writer took as signed numbers, and a
group of 9 and 2000000000. -/
def uint32Groups : List RowGroup :=
  [⟨[[(1, leBytes 4 7), (2, leBytes 4 4294967295)]], [[leBytes 4 7, leBytes 4 4294967295]]⟩,
    ⟨[[(5, leBytes 4 2000000000), (6, leBytes 4 9)]], [[leBytes 4 9, leBytes 4 2000000000]]⟩]

/-- The first group is read, the second is skipped. -/
theorem pqfdwComputeSkip_sound_uint32 :
    pqfdwComputeSkip ⟨fun _ => some, fun _ => true⟩ uint32Scan uint32Groups = [false, true] ∧
      ∃ rg ∈ uint32Groups[1]?, ∃ q ∈ uint32Scan.quals,
        Refuted ⟨fun _ => some, fun _ => true⟩ (fun _ _ d => some d) uint32Scan rg q := by
  have hskip : pqfdwComputeSkip ⟨fun _ => some, fun _ => true⟩ uint32Scan uint32Groups =
    [false, true] := by
    decide +kernel
  have hstats : ∀ rg ∈ uint32Groups, rg.Bounded uint32Scan := by
    intro rg hrg top htop _ leaf hleaf stats hst values hvalues
    cases mem_singleton.mp htop
    cases hleaf
    refine ⟨.signed, trivial, ?_⟩
    simp only [uint32Groups, mem_cons, not_mem_nil, or_false] at hrg
    rcases hrg with rfl | rfl
    · cases hst
      cases hvalues
      decide +kernel
    · cases hst
      cases hvalues
      decide +kernel
  refine ⟨hskip, ?_⟩
  exact pqfdwComputeSkip_sound _ _ uint32Scan consistent_int8Catalog uint32Groups hstats 1
    (by rw [hskip]; rfl)

end PgColumnar.Parquet
