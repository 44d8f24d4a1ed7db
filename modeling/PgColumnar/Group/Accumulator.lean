import Mathlib.Algebra.BigOperators.Group.List.Basic
import Mathlib.Data.BitVec
import Mathlib.Data.List.MinMax
import Mathlib.Data.List.ReduceOption
import Mathlib.Tactic.Ring

/-!
# Accumulators of integer aggregates

The state that `columnar_vector.c` keeps for an aggregate over an integer column: how a value
is folded into it (`pgcolumnar_apply_one`), how the state of later rows is folded into that of
earlier ones (`pgcolumnar_spec_merge`), and what the state is worth at the end.  Sums and
counts are of the machine integers that PostgreSQL's own transition functions use, which add
without a check.

## Main definitions

* `applyOne`, `specMerge`, `aggFinalize` — one value, two states, the answer.
* `Represents` — the state of a list of values.
* `combine` — PostgreSQL's function for partial states.

## Main results

* `represents_applyOne`, `represents_specMerge` — the states are those of the values.
* `aggFinalize_eq` — the answer is that of SQL.
-/

namespace PgColumnar.Group

open List Option BitVec

abbrev Datum := BitVec 64

inductive AggKind where
  | countStar
  | countCol
  | sumInt
  | avgInt
  | sumInt8
  | avgInt8
  | min
  | max
  deriving DecidableEq

/-- An aggregate over an integer column of `width` bits. -/
structure AggSpec where
  kind : AggKind
  width : ℕ

/-- The state: `nsum` is the running sum where there is no integer of 128 bits. -/
structure Acc where
  count : BitVec 64
  sum : BitVec 64
  i128sum : BitVec 128
  nsum : ℤ
  nsumSet : Bool
  sawValue : Bool
  extreme : Datum

/-- The state of a new group. -/
def Acc.template : Acc := ⟨0, 0, 0, 0, false, false, 0⟩

/-- `DatumGetInt16`, `DatumGetInt32` and `DatumGetInt64` -/
def AggSpec.value (spec : AggSpec) (d : Datum) : ℤ := (d.setWidth spec.width).toInt

/-- The comparison of the type. -/
def AggSpec.cmp (spec : AggSpec) (a b : Datum) : ℤ :=
  if spec.value b < spec.value a then 1 else if spec.value a = spec.value b then 0 else -1

variable (haveInt128 : Bool)

/-- The branch for the sums of eight-byte integers. -/
def addInt8 (acc : Acc) (v : ℤ) : Acc :=
  if haveInt128 then
    { acc with
      i128sum := acc.i128sum + BitVec.ofInt 128 v, nsumSet := true, count := acc.count + 1,
      sawValue := true }
  else
    { acc with
      nsum := if acc.nsumSet then acc.nsum + v else v, nsumSet := true, count := acc.count + 1,
      sawValue := true }

/-- `pgcolumnar_apply_one` -/
def applyOne (spec : AggSpec) (acc : Acc) (arg : Option Datum) : Acc :=
  match spec.kind, arg with
  | .countStar, _ => { acc with count := acc.count + 1 }
  | _, none => acc
  | .countCol, some _ => { acc with count := acc.count + 1 }
  | .sumInt, some d =>
    { acc with sum := acc.sum + BitVec.ofInt 64 (spec.value d), sawValue := true }
  | .avgInt, some d =>
    { acc with sum := acc.sum + BitVec.ofInt 64 (spec.value d), count := acc.count + 1 }
  | .sumInt8, some d => addInt8 haveInt128 acc (spec.value d)
  | .avgInt8, some d => addInt8 haveInt128 acc (spec.value d)
  | .min, some d =>
    -- on a tie the later value is taken
    if !acc.sawValue || decide (spec.cmp d acc.extreme ≤ 0) then
      { acc with extreme := d, sawValue := true }
    else acc
  | .max, some d =>
    if !acc.sawValue || decide (0 ≤ spec.cmp d acc.extreme) then
      { acc with extreme := d, sawValue := true }
    else acc

/-- The branch of `pgcolumnar_spec_merge` for the sums of eight-byte integers. -/
def mergeInt8 (dst src : Acc) : Acc :=
  let base := { dst with count := dst.count + src.count, sawValue := dst.sawValue || src.sawValue }
  if src.nsumSet then
    if haveInt128 then { base with i128sum := dst.i128sum + src.i128sum, nsumSet := true }
    else { base with nsum := if dst.nsumSet then dst.nsum + src.nsum
      else src.nsum, nsumSet := true }
  else base

/-- `pgcolumnar_spec_merge` -/
def specMerge (spec : AggSpec) (dst src : Acc) : Acc :=
  match spec.kind with
  | .countStar | .countCol => { dst with count := dst.count + src.count }
  | .sumInt => { dst with sum := dst.sum + src.sum, sawValue := dst.sawValue || src.sawValue }
  | .avgInt => { dst with sum := dst.sum + src.sum, count := dst.count + src.count }
  | .sumInt8 | .avgInt8 => mergeInt8 haveInt128 dst src
  | .min =>
    if !src.sawValue then dst
    else if !dst.sawValue || decide (spec.cmp src.extreme dst.extreme ≤ 0) then
      { dst with extreme := src.extreme, sawValue := true }
    else dst
  | .max =>
    if !src.sawValue then dst
    else if !dst.sawValue || decide (0 ≤ spec.cmp src.extreme dst.extreme) then
      { dst with extreme := src.extreme, sawValue := true }
    else dst

/-- What an aggregate returns: nothing, an integer, or the quotient of two as a numeric. -/
inductive AggValue where
  | null
  | int (n : ℤ)
  | ratio (sum count : ℤ)
  deriving DecidableEq, Repr

/-- The sum of eight-byte integers as a numeric. -/
def int8Total (acc : Acc) : ℤ := if haveInt128 then acc.i128sum.toInt else acc.nsum

/-- `pgcolumnar_agg_finalize` -/
def aggFinalize (spec : AggSpec) (acc : Acc) : AggValue :=
  match spec.kind with
  | .countStar | .countCol => .int acc.count.toInt
  | .sumInt => if acc.sawValue then .int acc.sum.toInt else .null
  | .avgInt => if acc.count = 0 then .null else .ratio acc.sum.toInt acc.count.toInt
  | .sumInt8 => if acc.nsumSet then .int (int8Total haveInt128 acc) else .null
  | .avgInt8 =>
    if acc.count = 0 ∨ acc.nsumSet = false then .null
    else .ratio (int8Total haveInt128 acc) acc.count.toInt
  | .min | .max => if acc.sawValue then .int (spec.value acc.extreme) else .null

/-! ### The aggregate of a list of values -/

/-- The values that are not null. -/
def AggSpec.values (spec : AggSpec) (args : List (Option Datum)) : List ℤ :=
  args.reduceOption.map spec.value

/-- The sum of the values in 64 bits, and their number. -/
def wordSum (vals : List ℤ) : BitVec 64 := BitVec.ofInt 64 vals.sum

def wordCount (n : ℕ) : BitVec 64 := BitVec.ofNat 64 n

/-- The sum as PostgreSQL's `int8_avg_accum` keeps it. -/
def wideSum (vals : List ℤ) : ℤ :=
  if haveInt128 then (BitVec.ofInt 128 vals.sum).toInt else vals.sum

/-- What PostgreSQL's aggregate is of these arguments. -/
def sqlAggregate (spec : AggSpec) (args : List (Option Datum)) : AggValue :=
  let vals := spec.values args
  match spec.kind with
  | .countStar => .int (wordCount args.length).toInt
  | .countCol => .int (wordCount vals.length).toInt
  | .sumInt => if vals = [] then .null else .int (wordSum vals).toInt
  | .avgInt =>
    if wordCount vals.length = 0 then .null
    else .ratio (wordSum vals).toInt (wordCount vals.length).toInt
  | .sumInt8 => if vals = [] then .null else .int (wideSum haveInt128 vals)
  | .avgInt8 =>
    if wordCount vals.length = 0 ∨ vals = [] then .null
    else .ratio (wideSum haveInt128 vals) (wordCount vals.length).toInt
  | .min => (vals.min?).elim .null .int
  | .max => (vals.max?).elim .null .int

/-- The sum of eight-byte integers is that of the values. -/
def IsTotal (acc : Acc) (vals : List ℤ) : Prop :=
  acc.count = wordCount vals.length ∧ acc.nsumSet = decide (vals ≠ []) ∧
    if haveInt128 then acc.i128sum = BitVec.ofInt 128 vals.sum
    else vals ≠ [] → acc.nsum = vals.sum

/-- The running value comes before the other values. -/
def IsExtreme (before : ℤ → ℤ → Prop) (spec : AggSpec) (acc : Acc) (vals : List ℤ) : Prop :=
  acc.sawValue = decide (vals ≠ []) ∧
    (vals ≠ [] → spec.value acc.extreme ∈ vals ∧ ∀ v ∈ vals, before (spec.value acc.extreme) v)

/-- The state is that of these arguments. -/
def Represents (spec : AggSpec) (acc : Acc) (args : List (Option Datum)) : Prop :=
  let vals := spec.values args
  match spec.kind with
  | .countStar => acc.count = wordCount args.length
  | .countCol => acc.count = wordCount vals.length
  | .sumInt => acc.sum = wordSum vals ∧ acc.sawValue = decide (vals ≠ [])
  | .avgInt => acc.sum = wordSum vals ∧ acc.count = wordCount vals.length
  | .sumInt8 | .avgInt8 => IsTotal haveInt128 acc vals
  | .min => IsExtreme (· ≤ ·) spec acc vals
  | .max => IsExtreme (· ≥ ·) spec acc vals

variable {haveInt128} {spec : AggSpec} {acc acc' : Acc} {args args' : List (Option Datum)}

/-! ### Sums and counts of two lists -/

@[simp] theorem values_nil : spec.values [] = [] := rfl

theorem values_append : spec.values (args ++ args') = spec.values args ++ spec.values args' := by
  unfold AggSpec.values
  rw [reduceOption_append, map_append]

theorem values_none : spec.values [none] = [] := rfl

theorem values_some (d : Datum) : spec.values [some d] = [spec.value d] := rfl

@[simp] theorem wordSum_append (l l' : List ℤ) : wordSum (l ++ l') = wordSum l + wordSum l' := by
  unfold wordSum
  rw [sum_append, ofInt_add]

@[simp] theorem wordCount_add (m n : ℕ) : wordCount (m + n) = wordCount m + wordCount n :=
  ofNat_add ..

theorem cmp_nonpos {a b : Datum} : spec.cmp a b ≤ 0 ↔ spec.value a ≤ spec.value b := by
  unfold AggSpec.cmp
  split
  · omega
  · split <;> omega

theorem cmp_nonneg {a b : Datum} : 0 ≤ spec.cmp a b ↔ spec.value b ≤ spec.value a := by
  unfold AggSpec.cmp
  split
  · omega
  · split <;> omega

/-! ### The operations -/

theorem represents_template : Represents haveInt128 spec .template [] := by
  unfold Represents IsTotal IsExtreme
  cases spec.kind <;> cases haveInt128 <;> simp [Acc.template, wordSum, wordCount]

/-- The order of the arguments does not matter. -/
theorem Represents.perm (h : Represents haveInt128 spec acc args) (hp : args.Perm args') :
    Represents haveInt128 spec acc args' := by
  have hvals : (spec.values args).Perm (spec.values args') :=
    (hp.filterMap id).map spec.value
  have hnil : spec.values args' = [] ↔ spec.values args = [] := by
    rw [← length_eq_zero_iff, ← hvals.length_eq, length_eq_zero_iff]
  have hsum := hvals.sum_eq
  unfold Represents IsTotal IsExtreme wordSum at h ⊢
  cases hk : spec.kind <;>
    simpa only [hk, ← hp.length_eq, ← hvals.length_eq, ← hsum, ne_eq, hnil, ← hvals.mem_iff] using h

theorem append_ne_nil (l l' : List ℤ) :
    decide (l ++ l' ≠ []) = (decide (l ≠ []) || decide (l' ≠ [])) := by
  cases l <;> cases l' <;> rfl

theorem IsTotal.merge {l l' : List ℤ} (h : IsTotal haveInt128 acc l)
    (h' : IsTotal haveInt128 acc' l') :
    IsTotal haveInt128 (mergeInt8 haveInt128 acc acc') (l ++ l') := by
  obtain ⟨hcount, hset, hsum⟩ := h
  obtain ⟨hcount', hset', hsum'⟩ := h'
  have hcounts : acc.count + acc'.count = wordCount (l ++ l').length := by
    rw [hcount, hcount', length_append, wordCount_add]
  unfold mergeInt8
  rw [hset']
  cases l' with
  | nil =>
    -- there is nothing in the later state
    refine ⟨hcounts, by simpa using hset, ?_⟩
    simpa using hsum
  | cons v vs =>
    rw [if_pos (decide_eq_true (cons_ne_nil v vs))]
    cases haveInt128 with
    | true =>
      refine ⟨hcounts, by rw [append_ne_nil]; simp, ?_⟩
      rw [if_pos rfl] at hsum hsum' ⊢
      simp only [if_true]
      rw [hsum, hsum', sum_append, ofInt_add]
    | false =>
      refine ⟨hcounts, by rw [append_ne_nil]; simp, ?_⟩
      rw [if_neg (by simp)] at hsum hsum' ⊢
      intro _
      simp only [Bool.false_eq_true, if_false]
      rw [hsum' (cons_ne_nil v vs), sum_append, hset]
      cases l with
      | nil => simp
      | cons w ws => rw [if_pos (by simp), hsum (cons_ne_nil w ws)]

/-- The running value of the two states that comes first. -/
theorem IsExtreme.merge {before : ℤ → ℤ → Prop} {l l' : List ℤ} {take : Bool}
    (htotal : ∀ a b, before a b ∨ before b a)
    (htrans : ∀ a b c, before a b → before b c → before a c)
    (htake : take = true ↔ before (spec.value acc'.extreme) (spec.value acc.extreme))
    (h : IsExtreme before spec acc l) (h' : IsExtreme before spec acc' l') :
    IsExtreme before spec (if !acc'.sawValue then acc
        else if !acc.sawValue || take then { acc with extreme := acc'.extreme, sawValue := true }
        else acc) (l ++ l') := by
  obtain ⟨hsaw, hmem⟩ := h
  obtain ⟨hsaw', hmem'⟩ := h'
  rw [hsaw, hsaw']
  cases l' with
  | nil =>
    rw [if_pos (by simp), append_nil]
    exact ⟨hsaw, hmem⟩
  | cons v vs =>
    obtain ⟨hin', hall'⟩ := hmem' (cons_ne_nil v vs)
    rw [if_neg (by simp)]
    cases l with
    | nil =>
      rw [if_pos (by simp), nil_append]
      exact ⟨by simp, fun _ => ⟨hin', hall'⟩⟩
    | cons w ws =>
      obtain ⟨hin, hall⟩ := hmem (cons_ne_nil w ws)
      cases ht : take with
      | true =>
        have hle := htake.mp ht
        rw [if_pos (by simp)]
        refine ⟨by simp, fun _ => ⟨mem_append_right _ hin', ?_⟩⟩
        intro u hu
        rcases mem_append.mp hu with hu | hu
        · exact htrans _ _ _ hle (hall u hu)
        · exact hall' u hu
      | false =>
        have hle : before (spec.value acc.extreme) (spec.value acc'.extreme) := by
          refine (htotal _ _).resolve_right fun hcon => ?_
          rw [htake.mpr hcon] at ht
          cases ht
        rw [if_neg (by simp)]
        refine ⟨by rw [hsaw]; simp, fun _ => ⟨mem_append_left _ hin, ?_⟩⟩
        intro u hu
        rcases mem_append.mp hu with hu | hu
        · exact hall u hu
        · exact htrans _ _ _ hle (hall' u hu)

/-- **The state of later values folded into that of earlier ones.** -/
theorem represents_specMerge (h : Represents haveInt128 spec acc args)
    (h' : Represents haveInt128 spec acc' args') :
    Represents haveInt128 spec (specMerge haveInt128 spec acc acc') (args ++ args') := by
  unfold Represents at h h' ⊢
  rw [values_append]
  unfold specMerge
  cases hk : spec.kind with
  | countStar | countCol =>
    simp only [hk] at h h' ⊢
    rw [h, h', length_append, wordCount_add]
  | sumInt =>
    simp only [hk] at h h' ⊢
    rw [h.1, h'.1, h.2, h'.2, wordSum_append, append_ne_nil]
    exact ⟨rfl, rfl⟩
  | avgInt =>
    simp only [hk] at h h' ⊢
    rw [h.1, h'.1, h.2, h'.2, wordSum_append, length_append, wordCount_add]
    exact ⟨rfl, rfl⟩
  | sumInt8 | avgInt8 =>
    simp only [hk] at h h' ⊢
    exact h.merge h'
  | min =>
    simp only [hk] at h h' ⊢
    exact h.merge le_total (fun _ _ _ => le_trans) (by rw [decide_eq_true_eq, cmp_nonpos]) h'
  | max =>
    simp only [hk] at h h' ⊢
    exact h.merge (fun a b => le_total b a) (fun _ _ _ hab hbc => le_trans hbc hab)
      (by rw [decide_eq_true_eq, cmp_nonneg]) h'

/-- A value is folded in like the state of that value alone. -/
theorem applyOne_eq_specMerge (arg : Option Datum) : applyOne haveInt128 spec acc arg =
      specMerge haveInt128 spec acc (applyOne haveInt128 spec .template arg) := by
  unfold applyOne specMerge addInt8 mergeInt8
  cases hk : spec.kind <;> cases arg <;> cases haveInt128 <;> simp [Acc.template]

theorem represents_single (arg : Option Datum) :
    Represents haveInt128 spec (applyOne haveInt128 spec .template arg) [arg] := by
  unfold Represents applyOne addInt8 IsTotal IsExtreme
  cases hk : spec.kind <;> cases arg <;> cases haveInt128 <;>
    simp [Acc.template, values_none, values_some, wordSum, wordCount]

/-- **One more value.** -/
theorem represents_applyOne (h : Represents haveInt128 spec acc args) (arg : Option Datum) :
    Represents haveInt128 spec (applyOne haveInt128 spec acc arg) (args ++ [arg]) := by
  rw [applyOne_eq_specMerge]
  exact represents_specMerge h (represents_single arg)

theorem IsTotal.int8Total_eq {vals : List ℤ} (h : IsTotal haveInt128 acc vals) (hne : vals ≠ []) :
    int8Total haveInt128 acc = wideSum haveInt128 vals := by
  have hsum := h.2.2
  unfold int8Total wideSum
  cases haveInt128 with
  | true =>
    rw [if_pos rfl] at hsum ⊢
    rw [hsum, if_pos rfl]
  | false =>
    rw [if_neg (by simp)] at hsum ⊢
    rw [hsum hne, if_neg (by simp)]

/-- **What the state of a list of values is worth.** -/
theorem aggFinalize_eq (h : Represents haveInt128 spec acc args) :
    aggFinalize haveInt128 spec acc = sqlAggregate haveInt128 spec args := by
  unfold Represents at h
  unfold aggFinalize sqlAggregate
  cases hk : spec.kind with
  | countStar | countCol =>
    simp only [hk] at h ⊢
    rw [h]
  | sumInt =>
    simp only [hk] at h ⊢
    rw [h.1, h.2]
    cases spec.values args <;> simp
  | avgInt =>
    simp only [hk] at h ⊢
    rw [h.1, h.2]
  | sumInt8 =>
    simp only [hk] at h ⊢
    by_cases hnil : spec.values args = []
    · rw [h.2.1, if_neg (by simp [hnil]), if_pos hnil]
    · rw [h.2.1, if_pos (by simp [hnil]), if_neg hnil, h.int8Total_eq hnil]
  | avgInt8 =>
    simp only [hk] at h ⊢
    by_cases hnil : spec.values args = []
    · rw [h.2.1, if_pos (by simp [hnil]), if_pos (.inr hnil)]
    · rw [h.1, h.2.1, h.int8Total_eq hnil]
      simp [hnil]
  | min =>
    simp only [hk] at h ⊢
    obtain ⟨hsaw, hmin⟩ := h
    rw [hsaw]
    by_cases hnil : spec.values args = []
    · simp [hnil]
    · obtain ⟨hmem, hall⟩ := hmin hnil
      rw [if_pos (by simp [hnil]), min?_eq_some_iff.mpr ⟨hmem, hall⟩]
      rfl
  | max =>
    simp only [hk] at h ⊢
    obtain ⟨hsaw, hmax⟩ := h
    rw [hsaw]
    by_cases hnil : spec.values args = []
    · simp [hnil]
    · obtain ⟨hmem, hall⟩ := hmax hnil
      rw [if_pos (by simp [hnil]), max?_eq_some_iff.mpr ⟨hmem, hall⟩]
      rfl

/-! ### Partial states -/

/-- What a partial node emits for an aggregate. -/
inductive PartialState where
  | count (n : BitVec 64)
  | sum (s : Option (BitVec 64))
  | avg (count sum : BitVec 64)
  | extreme (d : Option Datum)
  deriving DecidableEq

/-- `pgcolumnar_agg_emit_partial` -/
def aggEmitPartial (spec : AggSpec) (acc : Acc) : Option PartialState :=
  match spec.kind with
  | .countStar | .countCol => some (.count acc.count)
  | .sumInt => some (.sum (if acc.sawValue then some acc.sum else none))
  | .avgInt => some (.avg acc.count acc.sum)
  | .min | .max => some (.extreme (if acc.sawValue then some acc.extreme else none))
  | .sumInt8 | .avgInt8 => none

/-- PostgreSQL's `int8pl`, which fails if the sum is out of range. -/
def int8pl (a b : BitVec 64) : Option (BitVec 64) :=
  if (a + b).toInt = a.toInt + b.toInt then some (a + b) else none

/-- A strict function on states: an absent one leaves the other as it is. -/
def strictly {α : Type} (f : α → α → Option α) : Option α → Option α → Option (Option α)
  | none, b => some b
  | a, none => some a
  | some a, some b => (f a b).map some

/-- PostgreSQL's `int4smaller` for a minimum and `int4larger` for a maximum, and their like. -/
def extremeOf (spec : AggSpec) (x y : Datum) : Datum :=
  if spec.kind = .min then if spec.value x < spec.value y then x else y
  else if spec.value y < spec.value x then x else y

/-- PostgreSQL's combine function of an aggregate. -/
def combine (spec : AggSpec) : PartialState → PartialState → Option PartialState
  | .count a, .count b => (int8pl a b).map .count
  | .sum a, .sum b => (strictly int8pl a b).map .sum
  | .avg n a, .avg m b => some (.avg (n + m) (a + b))
  | .extreme a, .extreme b => (strictly (fun x y => some (extremeOf spec x y)) a b).map .extreme
  | _, _ => none

/-- PostgreSQL's final function of an aggregate. -/
def partialFinal (spec : AggSpec) : PartialState → AggValue
  | .count n => .int n.toInt
  | .sum s => s.elim .null fun v => .int v.toInt
  | .avg n s => if n = 0 then .null else .ratio s.toInt n.toInt
  | .extreme d => d.elim .null fun v => .int (spec.value v)

/-- How far the values can move a count or a sum. -/
def AggSpec.magnitude (spec : AggSpec) (args : List (Option Datum)) : ℕ :=
  match spec.kind with
  | .countStar => args.length
  | .countCol => (spec.values args).length
  | _ => ((spec.values args).map Int.natAbs).sum

theorem int8pl_eq_some {a b c : BitVec 64} (h : int8pl a b = some c) : c = a + b := by
  unfold int8pl at h
  split_ifs at h
  exact (Option.some.inj h).symm

/-- The state of no value at all. -/
theorem Represents.sumInt_eq_zero (h : Represents haveInt128 spec acc args)
    (hk : spec.kind = .sumInt) (hsaw : acc.sawValue = false) : acc.sum = 0 := by
  unfold Represents at h
  simp only [hk] at h
  obtain ⟨hsum, hnonempty⟩ := h
  have hnil : spec.values args = [] := by simpa [hsaw] using hnonempty
  rw [hsum, hnil]
  rfl

theorem extremeOf_min (hk : spec.kind = .min) (x y : Datum) :
    extremeOf spec x y = if decide (spec.cmp y x ≤ 0) then y else x := by
  unfold extremeOf
  simp only [hk, if_true, decide_eq_true_eq, cmp_nonpos]
  split <;> split <;> first | rfl | omega

theorem extremeOf_max (hk : spec.kind = .max) (x y : Datum) :
    extremeOf spec x y = if decide (0 ≤ spec.cmp y x) then y else x := by
  unfold extremeOf
  simp only [hk, reduceCtorEq, if_false, decide_eq_true_eq, cmp_nonneg]
  split <;> split <;> first | rfl | omega

/-- A state that a value is taken into when it does not come after the running one. -/
theorem strictly_extreme {take : Datum → Datum → Bool} {r : Option Datum}
    (hr : strictly (fun x y => some (if take x y then y else x))
      (if acc.sawValue then some acc.extreme else none)
      (if acc'.sawValue then some acc'.extreme else none) = some r) :
    let merged := if !acc'.sawValue then acc
      else if !acc.sawValue || take acc.extreme acc'.extreme then
        { acc with extreme := acc'.extreme, sawValue := true }
      else acc
    (if merged.sawValue then some merged.extreme else none) = r := by
  cases hs : acc.sawValue <;> cases hs' : acc'.sawValue <;>
    simp only [hs, hs', strictly, Bool.false_eq_true, if_true, if_false, map_some,
      Option.some.injEq, Bool.not_true, Bool.not_false, Bool.true_or, Bool.false_or] at hr ⊢
  · exact hr
  · exact hr
  · exact hr
  · rw [← hr]
    cases take acc.extreme acc'.extreme <;> simp [hs]

/-- Combining what was emitted is emitting what was merged, unless a sum is out of range. -/
theorem combine_emitPartial {p p' : PartialState} (h : Represents haveInt128 spec acc args)
    (h' : Represents haveInt128 spec acc' args') {r : PartialState}
    (hp : aggEmitPartial spec acc = some p) (hp' : aggEmitPartial spec acc' = some p')
    (hr : combine spec p p' = some r) :
    aggEmitPartial spec (specMerge haveInt128 spec acc acc') = some r := by
  have hzero := h.sumInt_eq_zero
  have hzero' := h'.sumInt_eq_zero
  unfold aggEmitPartial at hp hp' ⊢
  unfold specMerge
  cases hk : spec.kind with
  | countStar | countCol =>
    simp only [hk, Option.some.injEq] at hp hp' ⊢
    subst hp hp'
    obtain ⟨c, hc, rfl⟩ := map_eq_some_iff.mp hr
    rw [int8pl_eq_some hc]
  | sumInt =>
    simp only [hk, Option.some.injEq] at hp hp' ⊢
    subst hp hp'
    obtain ⟨c, hc, rfl⟩ := map_eq_some_iff.mp hr
    congr 1
    cases hs : acc.sawValue <;> cases hs' : acc'.sawValue <;>
      simp only [hs, hs', strictly, Bool.false_eq_true, if_true, if_false, Bool.or_false,
        Bool.or_true, Option.some.injEq, map_eq_some_iff] at hc ⊢
    · exact hc
    · simpa [hzero hk hs] using hc
    · simpa [hzero' hk hs'] using hc
    · obtain ⟨s, hsum, rfl⟩ := hc
      rw [int8pl_eq_some hsum]
  | avgInt =>
    simp only [hk, Option.some.injEq] at hp hp' ⊢
    subst hp hp'
    exact Option.some.inj hr
  | min =>
    simp only [hk, Option.some.injEq] at hp hp' ⊢
    subst hp hp'
    obtain ⟨d, hd, rfl⟩ := map_eq_some_iff.mp hr
    simp only [extremeOf_min hk] at hd
    rw [← strictly_extreme hd]
  | max =>
    simp only [hk, Option.some.injEq] at hp hp' ⊢
    subst hp hp'
    obtain ⟨d, hd, rfl⟩ := map_eq_some_iff.mp hr
    simp only [extremeOf_max hk] at hd
    rw [← strictly_extreme hd]
  | sumInt8 | avgInt8 => simp only [hk] at hp; cases hp

theorem int8pl_ofInt {i j : ℤ} (h : i.natAbs + j.natAbs < 2 ^ 63) :
    int8pl (BitVec.ofInt 64 i) (BitVec.ofInt 64 j) = some (BitVec.ofInt 64 (i + j)) := by
  have hself : ∀ k : ℤ, k.natAbs ≤ i.natAbs + j.natAbs → (BitVec.ofInt 64 k).toInt = k := by
    intro k hk
    apply toInt_ofInt_eq_self <;> norm_num at h ⊢ <;> omega
  unfold int8pl
  rw [← ofInt_add, hself i (by omega), hself j (by omega), hself (i + j) (by omega), if_pos rfl]

theorem natAbs_sum_le (l : List ℤ) : l.sum.natAbs ≤ (l.map Int.natAbs).sum := by
  induction l with
  | nil => exact le_refl _
  | cons v l ih =>
    rw [sum_cons, map_cons, sum_cons]
    exact (Int.natAbs_add_le _ _).trans (Nat.add_le_add_left ih _)

theorem magnitude_append (args args' : List (Option Datum)) :
    spec.magnitude (args ++ args') = spec.magnitude args + spec.magnitude args' := by
  unfold AggSpec.magnitude
  rw [values_append]
  cases spec.kind <;> simp

theorem magnitude_perm (h : args.Perm args') : spec.magnitude args = spec.magnitude args' := by
  have hvals : (spec.values args).Perm (spec.values args') := (h.filterMap id).map spec.value
  unfold AggSpec.magnitude
  rw [h.length_eq, hvals.length_eq, (hvals.map Int.natAbs).sum_eq]

/-- **Only large values are out of range** when two states are combined. -/
theorem magnitude_of_combine {p p' : PartialState} (h : Represents haveInt128 spec acc args)
    (h' : Represents haveInt128 spec acc' args')
    (hp : aggEmitPartial spec acc = some p) (hp' : aggEmitPartial spec acc' = some p')
    (hr : combine spec p p' = none) : 2 ^ 63 ≤ spec.magnitude (args ++ args') := by
  unfold Represents at h h'
  unfold aggEmitPartial at hp hp'
  unfold AggSpec.magnitude
  by_contra hlt
  rw [not_le] at hlt
  cases hk : spec.kind with
  | countStar | countCol =>
    simp only [hk, Option.some.injEq, values_append, length_append] at h h' hp hp' hlt
    subst hp hp'
    simp only [combine, map_eq_none_iff, h, h', wordCount, ← ofInt_natCast] at hr
    rw [int8pl_ofInt (by simpa using hlt)] at hr
    cases hr
  | sumInt =>
    simp only [hk, Option.some.injEq, values_append, map_append, sum_append] at h h' hp hp' hlt
    subst hp hp'
    have hsmall : (spec.values args).sum.natAbs + (spec.values args').sum.natAbs < 2 ^ 63 :=
      lt_of_le_of_lt (Nat.add_le_add (natAbs_sum_le _) (natAbs_sum_le _)) hlt
    have hsum : int8pl acc.sum acc'.sum ≠ none := by
      rw [h.1, h'.1]
      unfold wordSum
      rw [int8pl_ofInt hsmall]
      exact some_ne_none _
    simp only [combine, map_eq_none_iff] at hr
    revert hr
    cases acc.sawValue <;> cases acc'.sawValue <;> simp [strictly, hsum]
  | avgInt =>
    simp only [hk, Option.some.injEq] at hp hp'
    subst hp hp'
    cases hr
  | min | max =>
    simp only [hk, Option.some.injEq] at hp hp'
    subst hp hp'
    simp only [combine, map_eq_none_iff] at hr
    revert hr
    cases acc.sawValue <;> cases acc'.sawValue <;> simp [strictly]
  | sumInt8 | avgInt8 =>
    simp only [hk] at hp
    cases hp

/-- The final function gives what the node would have. -/
theorem partialFinal_eq {p : PartialState} (haveInt128 : Bool)
    (hp : aggEmitPartial spec acc = some p) :
    partialFinal spec p = aggFinalize haveInt128 spec acc := by
  unfold aggEmitPartial at hp
  unfold aggFinalize
  cases hk : spec.kind with
  | countStar | countCol | avgInt =>
    simp only [hk, Option.some.injEq] at hp ⊢
    subst hp
    rfl
  | sumInt | min | max =>
    simp only [hk, Option.some.injEq] at hp ⊢
    subst hp
    cases acc.sawValue <;> rfl
  | sumInt8 | avgInt8 =>
    simp only [hk] at hp
    cases hp

end PgColumnar.Group
