import PgColumnar.Keys.Clause
import PgColumnar.Lib.Boundaries

/-!
# `date_trunc` of a column as a range of the column

A clause that compares `date_trunc(unit, column)` with a constant becomes one or two keys on the
column (`pgcolumnar_preimage_range_scankey`), made of the first and the next boundary of the unit
around the constant.

The timestamp functions of the server are a parameter.  For the units of the table they are those of
a line of boundaries that are at most 366 days apart.

## Main definitions

* `preimageRangeScankey` — the keys of a clause over `date_trunc`.

## Main results

* `compare_trunc` — such a clause compares with a boundary.
* `conservative_iff` — which clauses get keys that pass every match.
-/

namespace PgColumnar.Keys

open Iceberg Zone List

/-- How a timestamp function fails. -/
inductive TimestampError where
  /-- `timestamp out of range` -/
  | outOfRange
  /-- The unit is not one that is known or supported. -/
  | badUnit
  deriving DecidableEq

/-- `timestamp_trunc`, `interval_in` and `timestamp_pl_interval`. -/
structure Datetime where
  trunc : CString → Timestamp → Except TimestampError Timestamp
  Interval : Type
  intervalIn : CString → Interval
  plInterval : Timestamp → Interval → Except TimestampError Timestamp

/-- The units that are inverted, with the step to the next boundary. -/
def units : List (CString × CString) :=
  [(ascii "second", ascii "1 second"), (ascii "minute", ascii "1 minute"),
    (ascii "hour", ascii "1 hour"), (ascii "day", ascii "1 day"), (ascii "week", ascii "1 week"),
    (ascii "month", ascii "1 month"), (ascii "quarter", ascii "3 months"),
    (ascii "year", ascii "1 year")]

def stepOf (unit : CString) : Option CString :=
  (units.find? fun u => caseEq unit u.1).map (·.2)

/-- A finite result, if it is in range. -/
def inRange (v : ℤ) : Except TimestampError Timestamp :=
  if h : minTimestamp ≤ v ∧ v < endTimestamp then .ok ⟨v, .inr (.inr h)⟩ else .error .outOfRange

/-- The functions follow a calendar, by the names of the units: truncation goes back to the boundary
before, the step of a unit leads from a boundary to the next, and both keep the infinities. -/
structure Datetime.Documented (core : Datetime) (cal : CString → Boundaries) : Prop where
  trunc_infinite : ∀ u ∈ units, ∀ unit t, caseEq unit u.1 = true → ¬ t.Finite →
    core.trunc unit t = .ok t
  trunc_finite : ∀ u ∈ units, ∀ unit t, caseEq unit u.1 = true → t.Finite →
    core.trunc unit t = inRange ((cal u.1).floor t.val)
  pl_infinite : ∀ u ∈ units, ∀ t, ¬ t.Finite → core.plInterval t (core.intervalIn u.2) = .ok t
  pl_boundary : ∀ u ∈ units, ∀ t, t.Finite → (cal u.1).floor t.val = t.val →
    core.plInterval t (core.intervalIn u.2) = inRange ((cal u.1).next t.val)
  width : ∀ u ∈ units, ∀ k, (cal u.1).start (k + 1) ≤ (cal u.1).start k + 366 * usecsPerDay

/-- `pgcolumnar_commute_strategy` -/
def commuteStrategy : Strategy → Strategy
  | .less => .greater
  | .lessEqual => .greaterEqual
  | .equal => .equal
  | .greaterEqual => .lessEqual
  | .greater => .less

/-- `F_DATE_TRUNC_TEXT_TIMESTAMP` -/
def dateTruncTextTimestamp : Oid := 2020

/-- The call and the constant, either way round, and whether the constant is on the left. -/
def funcConst : Node → Node → Option (Oid × List Node × Option Value × Bool)
  | .funcExpr funcid args, .const con => some (funcid, args, con, false)
  | .const con, .funcExpr funcid args => some (funcid, args, con, true)
  | _, _ => none

/-- What is read from a clause that can be inverted; the strategy is that of `date_trunc` on the
left. -/
structure DateTruncClause where
  unit : CString
  var : Var
  att : Attribute
  con : Timestamp
  strat : Strategy

variable (sc : Scan) (core : Datetime)

/-- The column of the call, if it is one of the scanned relation and of the right type. -/
def truncatedColumn : Node → Option (Var × Attribute)
  | .var v =>
    if v.varlevelsup ≠ 0 then none
    else
      match sc.attOf v with
      | some att => if att.atttypid = TIMESTAMPOID then some (v, att) else none
      | none => none
  | _ => none

/-- The checks at the head of `pgcolumnar_preimage_range_scankey`. -/
def dateTruncClause (op : OpExpr) : Option DateTruncClause :=
  match op.args with
  | [leftop, rightop] =>
    match funcConst leftop.stripRelabel rightop.stripRelabel with
    | some (funcid, [.const (some (.text unit)), arg1], some (.timestamp con), constOnLeft) =>
      if funcid = dateTruncTextTimestamp then
        match truncatedColumn sc arg1.stripRelabel, sc.timestampStrategy op.opno with
        | some (var, att), some strat =>
          some ⟨unit, var, att, con, if constOnLeft then commuteStrategy strat else strat⟩
        | _, _ => none
      else none
    | _ => none
  | _ => none

def DateTruncClause.key (d : DateTruncClause) (strategy : Strategy) (argument : Timestamp) :
    ScanKey Timestamp :=
  ⟨d.var.varattno, strategy, TIMESTAMPOID, d.att.attcollation, argument⟩

/-- The keys, by operator and by whether the constant is a boundary. -/
def boundaryKeys (d : DateTruncClause) (truncated : Bool) (lo hi : Timestamp) :
    List (ScanKey Timestamp) :=
  match d.strat with
  | .greaterEqual => [d.key .greaterEqual (if truncated then lo else hi)]
  | .greater => [d.key .greaterEqual hi]
  | .less => [d.key .less (if truncated then lo else hi)]
  | .lessEqual => [d.key .less hi]
  | .equal => if hi.val ≤ lo.val then [] else [d.key .greaterEqual lo, d.key .less hi]

/-- `pgcolumnar_preimage_range_scankey` behind its checks. -/
def clauseKeys (d : DateTruncClause) : Except TimestampError (List (ScanKey Timestamp)) :=
  match core.trunc d.unit d.con with
  | .error e => .error e
  | .ok lo =>
    if lo.val ≠ d.con.val ∧ d.strat = .equal then
      .ok []
    else
      match stepOf d.unit with
      | none => .ok []
      | some step =>
        if lo.Finite ∧ endTimestamp - 366 * usecsPerDay ≤ lo.val then
          .ok []
        else
          match core.plInterval lo (core.intervalIn step) with
          | .error e => .error e
          | .ok hi => .ok (boundaryKeys d (decide (lo.val = d.con.val)) lo hi)

/-- `pgcolumnar_preimage_range_scankey` -/
def preimageRangeScankey (op : OpExpr) : Except TimestampError (List (ScanKey Timestamp)) :=
  match dateTruncClause sc op with
  | none => .ok []
  | some d => clauseKeys core d

/-! ### The clause itself -/

instance (c : ℤ) (s : Strategy) : Decidable (s.holds c) := by
  cases s <;> unfold Strategy.holds <;> infer_instance

/-- The value of a column or a constant, in a row with this timestamp in the column. -/
def Node.leaf (t : Timestamp) : Node → Option Value
  | .var _ => some (.timestamp t)
  | .const con => con
  | .relabel arg => arg.leaf t
  | _ => none

/-- The value of an operand: a call of `date_trunc`, a column or a constant. -/
def Node.operand (t : Timestamp) : Node → Except TimestampError (Option Value)
  | .funcExpr funcid [unit, arg] =>
    if funcid = dateTruncTextTimestamp then
      match unit.leaf t, arg.leaf t with
      | some (.text unit), some (.timestamp s) => (some ∘ .timestamp) <$> core.trunc unit s
      | _, _ => .ok none
    else .ok none
  | .relabel arg => arg.operand t
  | n => .ok (n.leaf t)

/-- The clause on a row; a null does not pass. -/
def OpExpr.value (op : OpExpr) (t : Timestamp) : Except TimestampError Bool :=
  match op.args with
  | [leftop, rightop] =>
    match leftop.operand core t, rightop.operand core t with
    | .error e, _ => .error e
    | _, .error e => .error e
    | .ok (some (.timestamp a)), .ok (some (.timestamp b)) =>
      match sc.timestampStrategy op.opno with
      | some strat => .ok (decide (strat.holds (timestampCmp a b)))
      | none => .ok false
    | _, _ => .ok false
  | _ => .ok false

/-! ### What the clause says -/

theorem holds_timestampCmp (s : Strategy) (a b : Timestamp) :
    s.holds (timestampCmp a b) ↔ s.holds (a.val - b.val) := by
  have hsign := btintCmp_sign a.val b.val
  rw [timestampCmp]
  have hneg : btintCmp a.val b.val < 0 ↔ a.val - b.val < 0 := by
    rw [← Int.sign_neg_iff, hsign, Int.sign_neg_iff]
  have hpos : 0 < btintCmp a.val b.val ↔ 0 < a.val - b.val := by
    rw [← Int.sign_pos_iff, hsign, Int.sign_pos_iff]
  cases s <;> simp only [Strategy.holds] <;> omega

theorem holds_commute (s : Strategy) (a b : Timestamp) :
    (commuteStrategy s).holds (timestampCmp a b) ↔ s.holds (timestampCmp b a) := by
  rw [holds_timestampCmp, holds_timestampCmp]
  cases s <;> simp only [commuteStrategy, Strategy.holds] <;> omega

variable {sc : Scan} {core : Datetime}

theorem operand_stripRelabel (n : Node) (t : Timestamp) :
    n.operand core t = n.stripRelabel.operand core t := by
  cases n <;> rfl

theorem leaf_stripRelabel (n : Node) (t : Timestamp) : n.leaf t = n.stripRelabel.leaf t := by
  cases n <;> rfl

theorem truncatedColumn_eq_some {n : Node} {v : Var} {att : Attribute}
    (h : truncatedColumn sc n = some (v, att)) : n = .var v := by
  cases n with
  | var w =>
    rw [truncatedColumn] at h
    split_ifs at h
    split at h
    · split at h
      · cases h
        rfl
      · cases h
    · cases h
  | _ => cases h

variable {op : OpExpr}

/-- The call and the constant, from the head of the function. -/
theorem dateTruncClause_eq_some {d : DateTruncClause}
    (h : dateTruncClause sc op = some d) : ∃ leftop rightop arg1 constOnLeft strat,
      op.args = [leftop, rightop] ∧
      funcConst leftop.stripRelabel rightop.stripRelabel =
        some (dateTruncTextTimestamp, [.const (some (.text d.unit)), arg1],
          some (.timestamp d.con), constOnLeft) ∧
      arg1.stripRelabel = .var d.var ∧ sc.timestampStrategy op.opno = some strat ∧
      d.strat = if constOnLeft then commuteStrategy strat else strat := by
  unfold dateTruncClause at h
  split at h
  · next leftop rightop hargs =>
    split at h
    · next funcid unit arg1 con constOnLeft hfc =>
      obtain ⟨hid, h⟩ := Option.ite_none_right_eq_some.mp h
      split at h
      · next var att strat hcol hstrat =>
        cases h
        subst hid
        exact ⟨leftop, rightop, arg1, constOnLeft, strat, hargs, hfc,
          truncatedColumn_eq_some hcol, hstrat, rfl⟩
      · cases h
    · cases h
  · cases h

/-- **The clause compares the truncated timestamp with the constant**, by the strategy of
`date_trunc` on the left. -/
theorem value_eq {d : DateTruncClause} (h : dateTruncClause sc op = some d)
    (t : Timestamp) : op.value sc core t = (core.trunc d.unit t).map fun f =>
      decide (d.strat.holds (timestampCmp f d.con)) := by
  obtain ⟨leftop, rightop, arg1, constOnLeft, strat, hargs, hfc, hcol, hstrat, hd⟩ :=
    dateTruncClause_eq_some h
  have hcall : (Node.funcExpr dateTruncTextTimestamp
      [.const (some (.text d.unit)), arg1]).operand core t =
        (some ∘ .timestamp) <$> core.trunc d.unit t := by
    rw [Node.operand, if_pos rfl, leaf_stripRelabel arg1, hcol]
    rfl
  rw [OpExpr.value, hargs]
  dsimp only
  rw [operand_stripRelabel leftop, operand_stripRelabel rightop]
  cases hl : leftop.stripRelabel with
  | funcExpr funcid args =>
    cases hr : rightop.stripRelabel with
    | const con =>
      -- the call on the left
      rw [hl, hr] at hfc
      cases hfc
      rw [hcall, hd]
      cases core.trunc d.unit t with
      | error e => rfl
      | ok f =>
        change (match sc.timestampStrategy op.opno with | some _ => _ | none => _) = _
        rw [hstrat]
        rfl
    | _ =>
      rw [hl, hr] at hfc
      cases hfc
  | const con =>
    cases hr : rightop.stripRelabel with
    | funcExpr funcid args =>
      rw [hl, hr] at hfc
      cases hfc
      rw [hcall, hd]
      cases core.trunc d.unit t with
      | error e => rfl
      | ok f =>
        change (match sc.timestampStrategy op.opno with | some _ => _ | none => _) = _
        rw [hstrat]
        simp only [Except.map, if_true, holds_commute]
    | _ =>
      rw [hl, hr] at hfc
      cases hfc
  | _ =>
    rw [hl] at hfc
    cases hfc

/-! ### Truncation and the boundaries -/

theorem inRange_eq_ok {v : ℤ} {t : Timestamp} (h : inRange v = .ok t) : t.val = v ∧ t.Finite := by
  unfold inRange at h
  split_ifs at h with hr
  cases h
  refine ⟨rfl, ?_, ?_⟩
  · have hmin : noBegin < minTimestamp := by decide
    dsimp only
    omega
  · have hend : endTimestamp < noEnd := by decide
    dsimp only
    omega

theorem inRange_of {v : ℤ} (hlo : minTimestamp ≤ v) (hhi : v < endTimestamp) :
    ∃ t : Timestamp, inRange v = .ok t ∧ t.val = v ∧ t.Finite := by
  refine ⟨⟨v, .inr (.inr ⟨hlo, hhi⟩)⟩, dif_pos ⟨hlo, hhi⟩, inRange_eq_ok (dif_pos ⟨hlo, hhi⟩)⟩

section Sound

variable {cal : CString → Boundaries} (hcore : core.Documented cal) {u : CString × CString}
  (hu : u ∈ units)

include hcore hu

/-- What truncation makes of a timestamp. -/
theorem trunc_eq_ok {unit : CString} (hunit : caseEq unit u.1 = true) {t f : Timestamp}
    (h : core.trunc unit t = .ok f) :
    t.Finite ∧ f.Finite ∧ f.val = (cal u.1).floor t.val ∨ ¬ t.Finite ∧ f = t := by
  by_cases ht : t.Finite
  · rw [hcore.trunc_finite u hu unit t hunit ht] at h
    obtain ⟨hval, hf⟩ := inRange_eq_ok h
    exact .inl ⟨ht, hf, hval⟩
  · rw [hcore.trunc_infinite u hu unit t hunit ht] at h
    cases h
    exact .inr ⟨ht, rfl⟩

/-- Two boundaries in a row are at most 366 days apart. -/
theorem next_le (c : ℤ) : (cal u.1).next c ≤ (cal u.1).floor c + 366 * usecsPerDay :=
  hcore.width u hu _

end Sound

/-- The units of the table are different names. -/
theorem find_unit {u : CString × CString} (hu : u ∈ units) {unit : CString}
    (hunit : caseEq unit u.1 = true) : (units.find? fun v => caseEq unit v.1) = some u := by
  have hdistinct : ∀ v ∈ units, ∀ w ∈ units, caseEq v.1 w.1 = true → v = w := by decide
  cases hfind : units.find? fun v => caseEq unit v.1 with
  | none =>
    rw [find?_eq_none] at hfind
    exact absurd hunit (hfind u hu)
  | some v =>
    have hv := find?_some hfind
    have hsame : caseEq v.1 u.1 = true := by
      simp only [caseEq, decide_eq_true_eq] at hunit hv ⊢
      rw [← hv, hunit]
    rw [hdistinct v (mem_of_find?_eq_some hfind) u hu hsame]

theorem stepOf_eq {u : CString × CString} (hu : u ∈ units) {unit : CString}
    (hunit : caseEq unit u.1 = true) : stepOf unit = some u.2 := by
  rw [stepOf, find_unit hu hunit]
  rfl

theorem mem_boundaryKeys {d : DateTruncClause} {truncated : Bool} {lo hi : Timestamp}
    {key : ScanKey Timestamp} (h : key ∈ boundaryKeys d truncated lo hi) :
    (key.strategy = .greaterEqual ∧
      (d.strat = .greaterEqual ∧ key.argument = (if truncated then lo else hi) ∨
        d.strat = .greater ∧ key.argument = hi ∨ d.strat = .equal ∧ key.argument = lo)) ∨
    (key.strategy = .less ∧ (d.strat = .less ∧ key.argument = (if truncated then lo else hi) ∨
        d.strat = .lessEqual ∧ key.argument = hi ∨
        d.strat = .equal ∧ key.argument = hi ∧ lo.val < hi.val)) := by
  rw [boundaryKeys] at h
  split at h
  · next hs => obtain rfl := mem_singleton.mp h; exact .inl ⟨rfl, .inl ⟨hs, rfl⟩⟩
  · next hs => obtain rfl := mem_singleton.mp h; exact .inl ⟨rfl, .inr (.inl ⟨hs, rfl⟩)⟩
  · next hs => obtain rfl := mem_singleton.mp h; exact .inr ⟨rfl, .inl ⟨hs, rfl⟩⟩
  · next hs => obtain rfl := mem_singleton.mp h; exact .inr ⟨rfl, .inr (.inl ⟨hs, rfl⟩)⟩
  · next hs =>
    split at h
    · cases h
    · next hlt =>
      obtain rfl | h := mem_cons.mp h
      · exact .inl ⟨rfl, .inr (.inr ⟨hs, rfl⟩)⟩
      · obtain rfl := mem_singleton.mp h
        exact .inr ⟨rfl, .inr (.inr ⟨hs, rfl, not_le.mp hlt⟩)⟩

section Sound

variable {cal : CString → Boundaries} (hcore : core.Documented cal) {u : CString × CString}
  (hu : u ∈ units)

include hcore hu

/-- **A comparison of the truncated timestamp is one of the timestamp itself** with a boundary
around the constant. -/
theorem compare_trunc {unit : CString} (hunit : caseEq unit u.1 = true) {t f : Timestamp}
    (h : core.trunc unit t = .ok f) {c : ℤ} (hlo : minTimestamp ≤ (cal u.1).floor c)
    (hhi : (cal u.1).next c < endTimestamp) :
    (f.val ≤ c ↔ t.val < (cal u.1).next c) ∧ ((cal u.1).floor c = c → (f.val < c ↔ t.val < c)) ∧
      ((cal u.1).floor c ≠ c → (f.val < c ↔ t.val < (cal u.1).next c)) := by
  obtain ⟨-, -, hf⟩ | ⟨ht, rfl⟩ := trunc_eq_ok hcore hu hunit h
  · rw [hf]
    exact ⟨Boundaries.floor_le_iff, Boundaries.floor_lt_iff_of_floor_eq,
      Boundaries.floor_lt_iff_of_floor_ne⟩
  · -- an infinity is on the same side of all three
    have hc : (cal u.1).floor c ≤ c := Boundaries.floor_le
    have hn : c < (cal u.1).next c := Boundaries.lt_next
    have hmin : noBegin < minTimestamp := by decide
    have hend : endTimestamp < noEnd := by decide
    have hval : f.val = noBegin ∨ f.val = noEnd := by
      rw [Timestamp.Finite, not_and_or, not_not, not_not] at ht
      exact ht
    omega

variable {d : DateTruncClause} (hd : caseEq d.unit u.1 = true)

include hd

/-- The keys for a finite constant. -/
theorem clauseKeys_finite (hfin : d.con.Finite) (hlo : minTimestamp ≤ (cal u.1).floor d.con.val) :
    clauseKeys core d = .ok [] ∨ ∃ lo hi : Timestamp, lo.val = (cal u.1).floor d.con.val ∧
        hi.val = (cal u.1).next d.con.val ∧ hi.val < endTimestamp ∧
        ¬ (lo.val ≠ d.con.val ∧ d.strat = .equal) ∧
        clauseKeys core d = .ok (boundaryKeys d (decide (lo.val = d.con.val)) lo hi) := by
  have hle : (cal u.1).floor d.con.val ≤ d.con.val := Boundaries.floor_le
  obtain ⟨lo, hok, hval, hlofin⟩ := inRange_of hlo (lt_of_le_of_lt hle hfin.range.2)
  rw [← hcore.trunc_finite u hu d.unit d.con hd hfin] at hok
  rw [clauseKeys, hok]
  dsimp only
  by_cases heq : lo.val ≠ d.con.val ∧ d.strat = .equal
  · exact .inl (if_pos heq)
  rw [if_neg heq, stepOf_eq hu hd]
  dsimp only
  by_cases hguard : lo.Finite ∧ endTimestamp - 366 * usecsPerDay ≤ lo.val
  · exact .inl (if_pos hguard)
  rw [if_neg hguard]
  -- below the guard the next boundary is in range
  have hlt : lo.val < endTimestamp - 366 * usecsPerDay := by
    by_contra hge
    exact hguard ⟨hlofin, not_lt.mp hge⟩
  have hnext := next_le hcore hu d.con.val
  have hgt : d.con.val < (cal u.1).next d.con.val := Boundaries.lt_next
  have hhi : (cal u.1).next d.con.val < endTimestamp := by omega
  obtain ⟨hi, hiok, hival, -⟩ := inRange_of (le_trans hlo (hle.trans hgt.le)) hhi
  have hbound : (cal u.1).floor lo.val = lo.val := by rw [hval, Boundaries.floor_floor]
  have hstep := hcore.pl_boundary u hu lo hlofin hbound
  rw [hval, Boundaries.next_floor, hiok] at hstep
  rw [hstep]
  exact .inr ⟨lo, hi, hval, hival, hival ▸ hhi, heq, rfl⟩

/-- The keys for an infinite constant: both boundaries are the constant. -/
theorem clauseKeys_infinite (hinf : ¬ d.con.Finite) :
    clauseKeys core d = .ok (boundaryKeys d true d.con d.con) := by
  rw [clauseKeys, hcore.trunc_infinite u hu d.unit d.con hd hinf]
  dsimp only
  rw [if_neg (fun h => h.1 rfl), stepOf_eq hu hd]
  dsimp only
  rw [if_neg (fun h => hinf h.1), hcore.pl_infinite u hu d.con hinf]
  simp

/-- The rewriting fails where the bucket of the constant begins before the first timestamp. -/
theorem clauseKeys_error (hfin : d.con.Finite) (hlo : ¬ minTimestamp ≤ (cal u.1).floor d.con.val) :
    clauseKeys core d = .error .outOfRange := by
  rw [clauseKeys, hcore.trunc_finite u hu d.unit d.con hd hfin, inRange, dif_neg fun h => hlo h.1]

/-- **Every key of a clause passes the matching rows**, but for a clause that bounds the truncated
timestamp by an infinity. -/
theorem satisfied_of_holds (hle : ¬ (d.strat = .lessEqual ∧ ¬ d.con.Finite))
    (hlo : d.con.Finite → minTimestamp ≤ (cal u.1).floor d.con.val)
    {keys : List (ScanKey Timestamp)} (hkeys : clauseKeys core d = .ok keys) {t f : Timestamp}
    (hf : core.trunc d.unit t = .ok f) (hholds : d.strat.holds (timestampCmp f d.con)) :
    ∀ key ∈ keys, key.Satisfied timestampCmp t := by
  intro key hkey
  rw [ScanKey.Satisfied, holds_timestampCmp]
  rw [holds_timestampCmp] at hholds
  by_cases hfin : d.con.Finite
  · obtain hnil | ⟨lo, hi, hlov, hhiv, hhi, htrunc, heq⟩ :=
      clauseKeys_finite hcore hu hd hfin (hlo hfin)
    · rw [hnil] at hkeys
      cases hkeys
      cases hkey
    rw [heq] at hkeys
    cases hkeys
    rw [hhiv] at hhi
    obtain ⟨hfle, hflt, hflt'⟩ := compare_trunc hcore hu hd hf (hlo hfin) hhi
    by_cases htr : lo.val = d.con.val
    · have hflt := hflt (by omega)
      rw [decide_eq_true htr] at hkey
      obtain ⟨hs, ⟨hst, ha⟩ | ⟨hst, ha⟩ | ⟨hst, ha⟩⟩ |
          ⟨hs, ⟨hst, ha⟩ | ⟨hst, ha⟩ | ⟨hst, ha, -⟩⟩ := mem_boundaryKeys hkey <;>
        rw [hst] at hholds <;> rw [hs, ha] <;>
        simp only [Strategy.holds, if_true] at hholds ⊢ <;> omega
    · have hflt := hflt' (by omega)
      rw [decide_eq_false htr] at hkey
      obtain ⟨hs, ⟨hst, ha⟩ | ⟨hst, ha⟩ | ⟨hst, ha⟩⟩ |
          ⟨hs, ⟨hst, ha⟩ | ⟨hst, ha⟩ | ⟨hst, ha, -⟩⟩ := mem_boundaryKeys hkey <;>
        rw [hst] at hholds htrunc <;> rw [hs, ha] <;>
        simp only [Strategy.holds, Bool.false_eq_true, if_false] at hholds ⊢ <;> omega
  · rw [clauseKeys_infinite hcore hu hd hfin] at hkeys
    cases hkeys
    have hcon : d.con.val = noBegin ∨ d.con.val = noEnd := by
      rw [Timestamp.Finite, not_and_or, not_not, not_not] at hfin
      exact hfin
    have hmin : noBegin < minTimestamp := by decide
    have hend : endTimestamp < noEnd := by decide
    -- a finite timestamp stays between the infinities, an infinite one is kept
    have hcmp : (f.val = t.val) ∨ (minTimestamp ≤ f.val ∧ f.val < endTimestamp ∧
          minTimestamp ≤ t.val ∧ t.val < endTimestamp) := by
      obtain ⟨ht, hff, -⟩ | ⟨-, rfl⟩ := trunc_eq_ok hcore hu hd hf
      · exact .inr ⟨hff.range.1, hff.range.2, ht.range.1, ht.range.2⟩
      · exact .inl rfl
    have hval := t.valid
    obtain ⟨hs, ⟨hst, ha⟩ | ⟨hst, ha⟩ | ⟨hst, ha⟩⟩ |
        ⟨hs, ⟨hst, ha⟩ | ⟨hst, ha⟩ | ⟨hst, ha, hlt⟩⟩ := mem_boundaryKeys hkey
    · rw [hst] at hholds
      rw [hs, ha]
      simp only [Strategy.holds, if_true] at hholds ⊢
      omega
    · rw [hst] at hholds
      rw [hs, ha]
      simp only [Strategy.holds] at hholds ⊢
      omega
    · rw [hst] at hholds
      rw [hs, ha]
      simp only [Strategy.holds] at hholds ⊢
      omega
    · rw [hst] at hholds
      rw [hs, ha]
      simp only [Strategy.holds, if_true] at hholds ⊢
      omega
    · exact absurd ⟨hst, hfin⟩ hle
    · exact absurd hlt (lt_irrefl _)

end Sound

/-- What a pruning rewrite owes to its clause: the keys pass every row that the clause holds on, no
zone around such a row is excluded, and a timestamp out of range in the rewriting is one in the
evaluation of the clause on the rows, whatever they are. -/
structure Conservative (sc : Scan) (core : Datetime) (op : OpExpr) : Prop where
  satisfied : ∀ keys t, preimageRangeScankey sc core op = .ok keys → op.value sc core t = .ok true →
    ∀ key ∈ keys, key.Satisfied timestampCmp t
  notExcluded : ∀ keys t, preimageRangeScankey sc core op = .ok keys →
    op.value sc core t = .ok true → ∀ key ∈ keys, ∀ minv maxv, timestampCmp minv t ≤ 0 →
      timestampCmp t maxv ≤ 0 → extremesExclude timestampCmp key.predicate minv maxv = false
  noNewError : ∀ rows : List Timestamp, preimageRangeScankey sc core op = .error .outOfRange →
    rows.mapM (op.value sc core) = .error .outOfRange

theorem totalCmp_timestampCmp : Compare.TotalCmp timestampCmp :=
  Compare.totalCmp_of_key fun _ _ => btintCmp_sign _ _

theorem preimageRangeScankey_eq {d : DateTruncClause}
    (h : dateTruncClause sc op = some d) : preimageRangeScankey sc core op = clauseKeys core d := by
  rw [preimageRangeScankey, h]

/-- **Which clauses get conservative keys.**  Not those that bound the truncated timestamp from
above by an infinity, and not those whose constant lies in a bucket that begins before the first
timestamp. -/
theorem conservative_iff (sc : Scan) (core : Datetime) (cal : CString → Boundaries)
    (hcore : core.Documented cal) (op : OpExpr) (d : DateTruncClause)
    (hop : dateTruncClause sc op = some d) (u : CString × CString) (hu : u ∈ units)
    (hd : caseEq d.unit u.1 = true) :
    Conservative sc core op ↔ ¬ (d.strat = .lessEqual ∧ ¬ d.con.Finite) ∧
      (d.con.Finite → minTimestamp ≤ (cal u.1).floor d.con.val) := by
  have hkeys : preimageRangeScankey sc core op = clauseKeys core d := preimageRangeScankey_eq hop
  constructor
  · intro h
    constructor
    · intro hinf
      obtain ⟨hst, hinf⟩ := hinf
      -- the infinity itself is a matching row that the one key leaves out
      have hok := hkeys.trans (clauseKeys_infinite hcore hu hd hinf)
      rw [boundaryKeys, hst] at hok
      have hself : Strategy.lessEqual.holds (timestampCmp d.con d.con) := by
        rw [holds_timestampCmp]
        simp [Strategy.holds]
      have hval : op.value sc core d.con = .ok true := by
        rw [value_eq hop, hcore.trunc_infinite u hu d.unit d.con hd hinf, hst]
        exact congrArg Except.ok (decide_eq_true hself)
      have := h.satisfied _ _ hok hval _ mem_cons_self
      rw [ScanKey.Satisfied, holds_timestampCmp] at this
      simp [DateTruncClause.key, Strategy.holds] at this
    · intro hfin
      by_contra hlo
      have herr := hkeys.trans (clauseKeys_error hcore hu hd hfin hlo)
      -- there need not be any row
      have := h.noNewError [] herr
      cases this
  · intro h
    obtain ⟨hle, hlo⟩ := h
    have hsat : ∀ keys t, preimageRangeScankey sc core op = .ok keys →
        op.value sc core t = .ok true → ∀ key ∈ keys, key.Satisfied timestampCmp t := by
      intro keys t hok hval
      rw [value_eq hop] at hval
      cases hf : core.trunc d.unit t with
      | error e =>
        rw [hf] at hval
        cases hval
      | ok f =>
        rw [hf] at hval
        have hholds : d.strat.holds (timestampCmp f d.con) := by simpa [Except.map] using hval
        exact satisfied_of_holds hcore hu hd hle hlo (hkeys ▸ hok) hf hholds
    refine ⟨hsat, ?_, ?_⟩
    · intro keys t hok hval key hkey minv maxv hmin hmax
      exact not_excluded totalCmp_timestampCmp (hsat keys t hok hval key hkey) hmin hmax
    · intro rows herr
      rw [hkeys] at herr
      by_cases hfin : d.con.Finite
      · obtain hok | ⟨lo, hi, -, -, -, -, hok⟩ := clauseKeys_finite hcore hu hd hfin (hlo hfin)
        · rw [hok] at herr
          cases herr
        · rw [hok] at herr
          cases herr
      · rw [clauseKeys_infinite hcore hu hd hfin] at herr
        cases herr

/-! ### The Gregorian calendar -/

/-- The boundaries of the units, in microseconds from the start of the year 2000. -/
def gregorian (unit : CString) : Boundaries :=
  if unit = ascii "second" then .scale 1000000 (by decide) 0 .integers
  else if unit = ascii "minute" then .scale 60000000 (by decide) 0 .integers
  else if unit = ascii "hour" then .scale 3600000000 (by decide) 0 .integers
  else if unit = ascii "day" then .scale usecsPerDay (by decide) 0 .integers
  else if unit = ascii "week" then
    -- the first Monday is January 3
    .scale (7 * usecsPerDay) (by decide) (2 * usecsPerDay) .integers
  else
    -- months are counted from a March, the others begin with January
    .scale usecsPerDay (by decide) (-730425 * usecsPerDay) (if unit = ascii "month" then months
      else if unit = ascii "quarter" then .every 3 (by decide) (.shift 10 months)
      else .every 12 (by decide) (.shift 10 months))

/-- The server's functions on the units of the table and their steps. -/
noncomputable def gregorianDatetime : Datetime where
  trunc unit t :=
    match units.find? fun u => caseEq unit u.1 with
    | some u => if t.Finite then inRange ((gregorian u.1).floor t.val) else .ok t
    | none => .error .badUnit
  Interval := CString
  intervalIn := id
  plInterval t step :=
    match units.find? fun u => u.2 = step with
    | some u => if t.Finite then inRange ((gregorian u.1).next t.val) else .ok t
    | none => .error .outOfRange

theorem gregorian_width : ∀ u ∈ units, ∀ k,
    (gregorian u.1).start (k + 1) ≤ (gregorian u.1).start k + 366 * usecsPerDay := by
  intro u hu k
  have hday : usecsPerDay = 86400000000 := rfl
  -- the units of one width, in microseconds
  have hfixed : ∀ (w : ℤ) (hw : 0 < w) (origin : ℤ), w ≤ 7 * usecsPerDay →
      (Boundaries.scale w hw origin .integers).start (k + 1) ≤
        (Boundaries.scale w hw origin .integers).start k + 366 * usecsPerDay := by
    intro w hw origin hle
    simp only [Boundaries.scale, Boundaries.integers, id, mul_add, mul_one]
    omega
  -- the units of whole months, in days
  have hmonths : ∀ B : Boundaries, B.start (k + 1) ≤ B.start k + 366 →
      (Boundaries.scale usecsPerDay (by decide) (-730425 * usecsPerDay) B).start (k + 1) ≤
        (Boundaries.scale usecsPerDay (by decide) (-730425 * usecsPerDay) B).start k +
          366 * usecsPerDay := by
    intro B hB
    simp only [Boundaries.scale, hday]
    omega
  simp only [units, mem_cons, not_mem_nil, or_false] at hu
  obtain rfl | rfl | rfl | rfl | rfl | rfl | rfl | rfl := hu
  · exact hfixed 1000000 (by decide) 0 (by decide)
  · exact hfixed 60000000 (by decide) 0 (by decide)
  · exact hfixed 3600000000 (by decide) 0 (by decide)
  · exact hfixed usecsPerDay (by decide) 0 (by decide)
  · exact hfixed (7 * usecsPerDay) (by decide) (2 * usecsPerDay) (by decide)
  · apply hmonths months
    have := monthDay_succ k
    simp only [months]
    omega
  · apply hmonths (.every 3 (by decide) (.shift 10 months))
    have h₁ := monthDay_succ (3 * k + 10)
    have h₂ := monthDay_succ (3 * k + 10 + 1)
    have h₃ := monthDay_succ (3 * k + 10 + 1 + 1)
    have hsum : 3 * (k + 1) + 10 = 3 * k + 10 + 1 + 1 + 1 := by ring
    simp only [Boundaries.every, Boundaries.shift, months, hsum]
    omega
  · apply hmonths (.every 12 (by decide) (.shift 10 months))
    have h := monthDay_add_twelve (12 * k + 10)
    have hsum : 12 * (k + 1) + 10 = 12 * k + 10 + 12 := by ring
    simp only [Boundaries.every, Boundaries.shift, months, hsum]
    omega

theorem gregorian_documented : gregorianDatetime.Documented gregorian where
  trunc_infinite := by
    intro u hu unit t hunit ht
    simp only [gregorianDatetime, find_unit hu hunit]
    exact if_neg ht
  trunc_finite := by
    intro u hu unit t hunit ht
    simp only [gregorianDatetime, find_unit hu hunit]
    exact if_pos ht
  pl_infinite := by
    intro u hu t ht
    have hstep : ∀ u ∈ units, (units.find? fun v => decide (v.2 = u.2)) = some u := by decide
    simp only [gregorianDatetime, id, hstep u hu]
    exact if_neg ht
  pl_boundary := by
    intro u hu t ht _
    have hstep : ∀ u ∈ units, (units.find? fun v => decide (v.2 = u.2)) = some u := by decide
    simp only [gregorianDatetime, id, hstep u hu]
    exact if_pos ht
  width := gregorian_width

/-- A relation with one timestamp column, and the comparison operators of its type. -/
def timestampScan : Scan where
  scanrelid := 1
  tupdesc := [⟨TIMESTAMPOID, 0⟩]
  timestampStrategy opno :=
    [(2060, .equal), (2062, .less), (2063, .lessEqual), (2064, .greater),
      (2065, .greaterEqual)].lookup opno
  collationIsC _ := false

/-- The clause `date_trunc(unit, column) op con`. -/
def truncClause (unit : String) (opno : Oid) (con : Timestamp) : OpExpr :=
  ⟨opno, 0, [.funcExpr dateTruncTextTimestamp
    [.const (some (.text (ascii unit))), .var ⟨1, 1, 0⟩], .const (some (.timestamp con))]⟩

/-- February 15, 2024 -/
def february : Timestamp := ⟨761270400000000, .inr (.inr (by decide))⟩

/-- `date_trunc('Month', column) <= '2024-02-15'` -/
theorem conservative_month :
    Conservative timestampScan gregorianDatetime (truncClause "Month" 2063 february) := by
  have hfloor : (gregorian (ascii "month")).floor february.val =
      (gregorian (ascii "month")).start 24287 :=
    Boundaries.floor_eq (by decide) (by decide)
  refine (conservative_iff timestampScan gregorianDatetime gregorian gregorian_documented _
    ⟨ascii "Month", ⟨1, 1, 0⟩, ⟨TIMESTAMPOID, 0⟩, february, .lessEqual⟩ rfl
    (ascii "month", ascii "1 month") (by decide) (by decide)).mpr ⟨by decide, ?_⟩
  intro _
  rw [hfloor]
  decide

/-- `infinity` -/
def infinity : Timestamp := ⟨noEnd, .inr (.inl rfl)⟩

/-- `date_trunc('day', column) <= 'infinity'` leaves out the rows at infinity. -/
theorem not_conservative : ¬ ∀ op d, dateTruncClause timestampScan op = some d →
    (∃ u ∈ units, caseEq d.unit u.1 = true) → Conservative timestampScan gregorianDatetime op := by
  intro h
  have hop : dateTruncClause timestampScan (truncClause "day" 2063 infinity) =
    some ⟨ascii "day", ⟨1, 1, 0⟩, ⟨TIMESTAMPOID, 0⟩, infinity, .lessEqual⟩ := rfl
  have hday : (ascii "day", ascii "1 day") ∈ units := by decide
  have hinf : ¬ infinity.Finite := by decide
  have hc := h _ _ hop ⟨_, hday, by decide⟩
  have hkeys := (preimageRangeScankey_eq hop).trans
    (clauseKeys_infinite gregorian_documented hday (by decide) hinf)
  have hval : (truncClause "day" 2063 infinity).value timestampScan gregorianDatetime infinity =
      .ok true := by
    rw [value_eq hop, gregorian_documented.trunc_infinite _ hday _ _ (by decide) hinf]
    rfl
  have := hc.satisfied _ _ hkeys hval _ mem_cons_self
  rw [ScanKey.Satisfied, holds_timestampCmp] at this
  exact absurd this (by decide)

end PgColumnar.Keys
