import PgColumnar.Lib.Extended
import Mathlib.Algebra.Order.Ring.Rat
import Mathlib.Data.List.ReduceOption
import Mathlib.Tactic.Positivity

/-!
# The float average in parts

`avg` of a float column keeps the count, the sum `Sx` and the second moment `Sxx` of Youngs and
Cramer, the last only so that it overflows where core's does (`columnar_vector.c`).  A run of the
spilled grouping, or a parallel worker, accumulates its own part, and the parts are combined in
order, by `pgcolumnar_spec_merge` or by core's `float8_combine`.

Values are numbers that neither round nor overflow, infinities and NaN.

## Main definitions

* `applyOne`, `specMerge`, `finalize` — the accumulator of `avg`, its parts combined, the answer.
* `Float8Avg` — PostgreSQL's own functions, for partial states sent by workers.
* `CleanAfter` — no part clashes with the values before it; `Quiet` splits combine without an
  error.

## Main results

* `accumulate_eq` — an accumulation raises no error.
* `average_in_parts` — exactly the quiet splits give the serial average.
-/

namespace PgColumnar.Agg

open Extended List

abbrev Float8 := Extended ℚ

/-- The error `value out of range: overflow`. -/
inductive FloatOverflow where
  | valueOutOfRange
  deriving DecidableEq

/-- The fields of `PgColumnarAggSpec` that a float average uses. -/
structure AvgSpec where
  count : ℕ
  fsum : Float8
  fsxx : Float8
  sawValue : Bool
  deriving DecidableEq

/-- The accumulator before the first value. -/
def AvgSpec.zero : AvgSpec := ⟨0, 0, 0, false⟩

/-! ### Accumulating -/

namespace AvgSpec

def n (spec : AvgSpec) : Float8 := ofNat spec.count

def newN (spec : AvgSpec) : Float8 := spec.n + fin 1

def newSx (spec : AvgSpec) (v : Float8) : Float8 := spec.fsum + v

def tmp (spec : AvgSpec) (v : Float8) : Float8 := v * spec.newN - spec.newSx v

def newSxx (spec : AvgSpec) (v : Float8) : Float8 :=
  spec.fsxx + spec.tmp v * spec.tmp v / (spec.n * spec.newN)

end AvgSpec

/-- `pgcolumnar_apply_one`, the case `COLUMNAR_AGG_AVG_FLOAT`. -/
def applyOne (spec : AvgSpec) : Option Float8 → Except FloatOverflow AvgSpec
  | none => .ok spec
  | some v =>
    if 0 < spec.count then
      if ((spec.newSx v).IsInf ∨ (spec.newSxx v).IsInf) ∧ ¬ spec.fsum.IsInf ∧ ¬ v.IsInf then
        .error .valueOutOfRange
      else
        .ok ⟨spec.count + 1, spec.newSx v, spec.newSxx v, true⟩
    else
      .ok ⟨spec.count + 1, spec.newSx v, spec.fsxx, true⟩

def accumulate (spec : AvgSpec) (vals : List (Option Float8)) : Except FloatOverflow AvgSpec :=
  vals.foldlM applyOne spec

/-- `pgcolumnar_agg_finalize` -/
def finalize (spec : AvgSpec) : Option Float8 :=
  if spec.count = 0 then none else some (spec.fsum / ofNat spec.count)

/-- One scan over all the rows. -/
def serialAverage (vals : List (Option Float8)) : Except FloatOverflow (Option Float8) :=
  finalize <$> accumulate .zero vals

/-! ### Combining -/

/-- The difference of the means. -/
def meanDiff (n₁ sx₁ n₂ sx₂ : Float8) : Float8 := sx₁ / n₁ - sx₂ / n₂

/-- The second moment of two parts together. -/
def mergedSxx (n₁ sx₁ sxx₁ n₂ sx₂ sxx₂ : Float8) : Float8 :=
  sxx₁ + sxx₂ + n₁ * n₂ * meanDiff n₁ sx₁ n₂ sx₂ * meanDiff n₁ sx₁ n₂ sx₂ / (n₁ + n₂)

/-- The test by which a sum overflowed: infinite with both of its parts not. -/
def Overflowed (r a b : Float8) : Prop := r.IsInf ∧ ¬ a.IsInf ∧ ¬ b.IsInf

instance (r a b : Float8) : Decidable (Overflowed r a b) := by
  unfold Overflowed
  infer_instance

/-- `pgcolumnar_spec_merge`, the case `COLUMNAR_AGG_AVG_FLOAT`. -/
def specMerge (dst src : AvgSpec) : Except FloatOverflow AvgSpec :=
  if src.count = 0 then
    .ok dst
  else if dst.count = 0 then
    .ok ⟨src.count, src.fsum, src.fsxx, true⟩
  else if Overflowed (dst.fsum + src.fsum) dst.fsum src.fsum ∨
      Overflowed (mergedSxx dst.n dst.fsum dst.fsxx src.n src.fsum src.fsxx) dst.fsxx src.fsxx then
    .error .valueOutOfRange
  else
    .ok ⟨dst.count + src.count, dst.fsum + src.fsum,
      mergedSxx dst.n dst.fsum dst.fsxx src.n src.fsum src.fsxx, dst.sawValue⟩

/-- A group's runs, read in order: the first is loaded, the later ones are merged into it. -/
def runsAverage (parts : List (List (Option Float8))) : Except FloatOverflow (Option Float8) := do
  let runs ← parts.mapM (accumulate .zero)
  match runs with
  | [] => .ok none
  | run :: next => finalize <$> next.foldlM specMerge run

/-- The transition array `{N, Sx, Sxx}` of core's float averages. -/
structure Float8State where
  N : Float8
  Sx : Float8
  Sxx : Float8
  deriving DecidableEq

/-- `pgcolumnar_agg_emit_partial`, the case `COLUMNAR_AGG_AVG_FLOAT`. -/
def emitPartial (spec : AvgSpec) : Float8State := ⟨ofNat spec.count, spec.fsum, spec.fsxx⟩

/-- Core's `float8_combine` and `float8_avg`. -/
structure Float8Avg where
  combine : Float8State → Float8State → Except FloatOverflow Float8State
  avg : Float8State → Option Float8

/-- What the two do: an empty side leaves the other one, two sides with rows are combined by Youngs
and Cramer's formulas with an overflow test on each of the two sums, and the average is `Sx / N`. -/
structure Float8Avg.Documented (core : Float8Avg) : Prop where
  combine_left : ∀ s t, s.N = 0 → core.combine s t = .ok t
  combine_right : ∀ s t, s.N ≠ 0 → t.N = 0 → core.combine s t = .ok s
  combine_both : ∀ s t, s.N ≠ 0 → t.N ≠ 0 → core.combine s t =
    if Overflowed (s.Sx + t.Sx) s.Sx t.Sx ∨
        Overflowed (mergedSxx s.N s.Sx s.Sxx t.N t.Sx t.Sxx) s.Sxx t.Sxx then
      .error .valueOutOfRange
    else
      .ok ⟨s.N + t.N, s.Sx + t.Sx, mergedSxx s.N s.Sx s.Sxx t.N t.Sx t.Sxx⟩
  avg_empty : ∀ s, s.N = 0 → core.avg s = none
  avg_rows : ∀ s, s.N ≠ 0 → core.avg s = some (s.Sx / s.N)

/-- Each worker emits its state, and the leader combines the states from core's initial one. -/
def workersAverage (core : Float8Avg) (parts : List (List (Option Float8))) :
    Except FloatOverflow (Option Float8) := do
  let workers ← parts.mapM (accumulate .zero)
  core.avg <$> (workers.map emitPartial).foldlM core.combine ⟨0, 0, 0⟩

/-! ### What an accumulator holds -/

/-- All values are finite. -/
def AllFin (xs : List Float8) : Prop := ∀ x ∈ xs, x.IsFin

instance (xs : List Float8) : Decidable (AllFin xs) := by
  unfold AllFin
  infer_instance

/-- An accumulator that has taken in these values.  Only the kind of its second moment matters: the
first value leaves it zero whatever the value, and from the second value on it is finite as long as
all values are. -/
structure Accumulates (xs : List Float8) (spec : AvgSpec) : Prop where
  count : spec.count = xs.length
  fsum : spec.fsum = xs.sum
  fsxx : spec.fsxx.IsFin ↔ AllFin xs ∨ xs.length ≤ 1

theorem Accumulates.zero : Accumulates [] .zero :=
  ⟨rfl, rfl, by simp [AvgSpec.zero, zero_def]⟩

namespace Accumulates

variable {xs ys : List Float8} {spec d s : AvgSpec} {v : Float8}

theorem fsum_isFin (h : Accumulates xs spec) : spec.fsum.IsFin ↔ AllFin xs := by
  rw [h.fsum]
  exact isFin_sum_iff

theorem allFin_iff (h : Accumulates xs spec) : AllFin xs ↔ spec.fsxx.IsFin ∧ spec.fsum.IsFin := by
  rw [h.fsum_isFin, h.fsxx]
  constructor
  · intro hx
    exact ⟨.inl hx, hx⟩
  · exact And.right

/-- A lone infinity is the one way to an infinite sum beside a finite second moment. -/
theorem lone_iff (h : Accumulates xs spec) {t : Bool} :
    xs = [inf t] ↔ spec.fsxx.IsFin ∧ spec.fsum = inf t := by
  rw [h.fsxx, h.fsum]
  constructor
  · intro hx
    subst hx
    exact ⟨.inr (by simp), by simp⟩
  · intro hx
    obtain ⟨hx, hsum⟩ := hx
    obtain hx | hx := hx
    · have := isFin_sum_iff.mpr hx
      rw [hsum] at this
      exact absurd this not_isFin_inf
    · match xs, hx with
      | [], _ => simp [zero_def] at hsum
      | [x], _ => simpa using hsum

theorem n_eq (h : Accumulates xs spec) : spec.n = fin (xs.length : ℚ) := by
  rw [AvgSpec.n, h.count]
  rfl

theorem newN_eq (h : Accumulates xs spec) : spec.newN = fin ((xs.length : ℚ) + 1) := by
  rw [AvgSpec.newN, h.n_eq]
  rfl

theorem tmp_isFin_iff (h : Accumulates xs spec) :
    (spec.tmp v).IsFin ↔ spec.fsum.IsFin ∧ v.IsFin := by
  have hpos : (0 : ℚ) < xs.length + 1 := by positivity
  rw [AvgSpec.tmp, isFin_sub_iff, h.newN_eq, isFin_mul_fin hpos, AvgSpec.newSx, isFin_add_iff]
  tauto

/-- The second moment after one more value, when there were values before. -/
theorem newSxx_isFin_iff (h : Accumulates xs spec) (hne : xs ≠ []) :
    (spec.newSxx v).IsFin ↔ AllFin (xs ++ [v]) := by
  have hlen : (0 : ℚ) < xs.length := by exact_mod_cast length_pos_of_ne_nil hne
  have hpos : (0 : ℚ) < xs.length * (xs.length + 1) := by positivity
  have hall : AllFin (xs ++ [v]) ↔ AllFin xs ∧ v.IsFin := by simp [AllFin, or_imp, forall_and]
  rw [AvgSpec.newSxx, isFin_add_iff, h.n_eq, h.newN_eq, fin_mul_fin, isFin_div_fin hpos,
    isFin_mul_self, h.tmp_isFin_iff, hall, h.allFin_iff]
  tauto

/-- **Accumulating a value raises no error.** -/
theorem applyOne (h : Accumulates xs spec) (v : Float8) :
    ∃ spec', applyOne spec (some v) = .ok spec' ∧ Accumulates (xs ++ [v]) spec' := by
  by_cases hne : xs = []
  · -- the first value: no test, and the second moment stays
    subst hne
    have hcount : ¬ 0 < spec.count := by simp [h.count]
    refine ⟨_, if_neg hcount, ⟨by simp [h.count], by simp [AvgSpec.newSx, h.fsum], ?_⟩⟩
    simpa using h.fsxx
  · have hcount : 0 < spec.count := h.count ▸ length_pos_of_ne_nil hne
    have hquiet : ¬ (((spec.newSx v).IsInf ∨ (spec.newSxx v).IsInf) ∧
        ¬ spec.fsum.IsInf ∧ ¬ v.IsInf) := by
      intro herr
      obtain ⟨herr, hs, hv⟩ := herr
      obtain herr | herr := herr
      · obtain hi | hi := isInf_add herr
        · exact hs hi
        · exact hv hi
      · by_cases hfin : spec.fsum.IsFin ∧ v.IsFin
        · -- all values are finite, and so is the second moment
          have hmom : (spec.newSxx v).IsFin := by
            rw [h.newSxx_isFin_iff hne]
            intro x hx
            obtain hx | hx := mem_append.mp hx
            · exact h.fsum_isFin.mp hfin.1 x hx
            · rw [mem_singleton.mp hx]
              exact hfin.2
          obtain ⟨q, hq⟩ := hmom
          rw [hq] at herr
          exact not_isInf_fin herr
        · -- a NaN makes the second moment NaN
          have hnan : spec.newSx v = nan := by
            rw [AvgSpec.newSx]
            by_cases hf : spec.fsum.IsFin
            · rw [eq_nan_of_not (fun hv' => hfin ⟨hf, hv'⟩) hv, add_nan]
            · rw [eq_nan_of_not hf hs, nan_add]
          rw [AvgSpec.newSxx, AvgSpec.tmp, hnan] at herr
          simp at herr
    refine ⟨_, (if_pos hcount).trans (if_neg hquiet), ⟨by simp [h.count], ?_, ?_⟩⟩
    · simp [AvgSpec.newSx, h.fsum]
    · rw [h.newSxx_isFin_iff hne]
      have : 0 < xs.length := length_pos_of_ne_nil hne
      simp only [length_append, length_singleton]
      constructor
      · exact Or.inl
      · intro hor
        obtain hor | hor := hor
        · exact hor
        · omega

end Accumulates

/-- **One accumulation raises no error**, and takes in the values that are not null. -/
theorem accumulate_eq (vals : List (Option Float8)) : ∀ {xs : List Float8} {spec : AvgSpec},
    Accumulates xs spec → ∃ spec', accumulate spec vals = .ok spec' ∧
      Accumulates (xs ++ vals.reduceOption) spec' := by
  induction vals with
  | nil =>
    intro xs spec h
    exact ⟨spec, rfl, by simpa [List.reduceOption] using h⟩
  | cons v vals ih =>
    intro xs spec h
    cases v with
    | none =>
      obtain ⟨spec', hrun, hacc⟩ := ih h
      exact ⟨spec', hrun, by simpa [List.reduceOption] using hacc⟩
    | some v =>
      obtain ⟨next, hnext, hacc⟩ := h.applyOne v
      obtain ⟨spec', hrun, hacc⟩ := ih hacc
      refine ⟨spec', ?_, by simpa [List.reduceOption] using hacc⟩
      rw [accumulate, foldlM_cons, hnext]
      exact hrun

/-! ### Combining two parts -/

/-- The two parts whose combination reports an overflow: a lone infinity beside finite values or
beside the opposite infinity, alone as well. -/
def Clash (xs ys : List Float8) : Prop :=
  xs ≠ [] ∧ ys ≠ [] ∧
    ((∃ t, xs = [inf t] ∧ (AllFin ys ∨ ys = [inf !t])) ∨ AllFin xs ∧ ∃ t, ys = [inf t])

/-- The accumulator of two combined parts. -/
def AvgSpec.merged (d s : AvgSpec) : AvgSpec :=
  ⟨d.count + s.count, d.fsum + s.fsum, mergedSxx d.n d.fsum d.fsxx s.n s.fsum s.fsxx, d.sawValue⟩

/-- The test of both combining functions. -/
def MergeOverflows (d s : AvgSpec) : Prop :=
  Overflowed (d.fsum + s.fsum) d.fsum s.fsum ∨
    Overflowed (mergedSxx d.n d.fsum d.fsxx s.n s.fsum s.fsxx) d.fsxx s.fsxx

namespace Accumulates

variable {xs ys : List Float8} {d s : AvgSpec}

theorem count_eq_zero_iff (h : Accumulates xs d) : d.count = 0 ↔ xs = [] := by
  rw [h.count, length_eq_zero_iff]

theorem length_pos (hne : xs ≠ []) : (0 : ℚ) < xs.length := by
  exact_mod_cast length_pos_of_ne_nil hne

theorem meanDiff_isFin_iff (hd : Accumulates xs d) (hs : Accumulates ys s) (hx : xs ≠ [])
    (hy : ys ≠ []) : (meanDiff d.n d.fsum s.n s.fsum).IsFin ↔ AllFin xs ∧ AllFin ys := by
  rw [meanDiff, isFin_sub_iff, hd.n_eq, hs.n_eq, isFin_div_fin (length_pos hx),
    isFin_div_fin (length_pos hy), hd.fsum_isFin, hs.fsum_isFin]

theorem div_n_eq_inf_iff (h : Accumulates xs d) (hne : xs ≠ []) {t : Bool} :
    d.fsum / d.n = inf t ↔ d.fsum = inf t := by
  rw [h.n_eq]
  cases d.fsum with
  | fin x => simp [fin_div_fin x _ (length_pos hne).ne']
  | inf u => simp [inf_div_fin _ u (length_pos hne)]
  | nan => simp

theorem meanDiff_isInf_iff (hd : Accumulates xs d) (hs : Accumulates ys s) (hx : xs ≠ [])
    (hy : ys ≠ []) : (meanDiff d.n d.fsum s.n s.fsum).IsInf ↔
      (∃ t, d.fsum = inf t ∧ (s.fsum.IsFin ∨ s.fsum = inf !t)) ∨
        d.fsum.IsFin ∧ ∃ t, s.fsum = inf t := by
  have hdfin : (d.fsum / d.n).IsFin ↔ d.fsum.IsFin := by
    rw [hd.n_eq]
    exact isFin_div_fin (length_pos hx)
  have hsfin : (s.fsum / s.n).IsFin ↔ s.fsum.IsFin := by
    rw [hs.n_eq]
    exact isFin_div_fin (length_pos hy)
  rw [meanDiff, isInf_sub_iff, hdfin, hsfin]
  simp only [IsInf, hd.div_n_eq_inf_iff hx, hs.div_n_eq_inf_iff hy]
  constructor
  · intro h
    obtain ⟨⟨t, ht⟩, hf⟩ | h | ⟨t, ht, hu⟩ := h
    · exact .inl ⟨t, ht, .inl hf⟩
    · exact .inr h
    · exact .inl ⟨t, ht, .inr hu⟩
  · intro h
    obtain ⟨t, ht, hf | hu⟩ | h := h
    · exact .inl ⟨⟨t, ht⟩, hf⟩
    · exact .inr (.inr ⟨t, ht, hu⟩)
    · exact .inr (.inl h)

/-- What the product in the merged second moment is scaled by. -/
theorem scale_eq (hd : Accumulates xs d) (hs : Accumulates ys s) :
    d.n * s.n = fin ((xs.length : ℚ) * ys.length) ∧
      d.n + s.n = fin ((xs.length : ℚ) + ys.length) := by
  rw [hd.n_eq, hs.n_eq]
  exact ⟨rfl, rfl⟩

/-- The accumulator of two combined parts has taken in the values of both. -/
theorem merged (hd : Accumulates xs d) (hs : Accumulates ys s) (hx : xs ≠ []) (hy : ys ≠ []) :
    Accumulates (xs ++ ys) (d.merged s) := by
  have hx0 := length_pos hx
  have hy0 := length_pos hy
  refine ⟨?_, ?_, ?_⟩
  · rw [AvgSpec.merged, length_append, hd.count, hs.count]
  · rw [AvgSpec.merged, sum_append, hd.fsum, hs.fsum]
  · obtain ⟨hmul, hadd⟩ := scale_eq hd hs
    have hall : AllFin (xs ++ ys) ↔ AllFin xs ∧ AllFin ys := by
      simp [AllFin, or_imp, forall_and]
    have hlen : ¬ (xs ++ ys).length ≤ 1 := by
      have := length_pos_of_ne_nil hx
      have := length_pos_of_ne_nil hy
      rw [length_append]
      omega
    rw [AvgSpec.merged, mergedSxx, isFin_add_iff, isFin_add_iff, hmul, hadd,
      isFin_div_fin (by positivity), isFin_fin_mul_mul_self (by positivity),
      meanDiff_isFin_iff hd hs hx hy, hall, hd.fsxx, hs.fsxx]
    tauto

/-- **Exactly the clashing parts report an overflow.**  The sums themselves never do, so the test is
that of the second moments. -/
theorem mergeOverflows_iff (hd : Accumulates xs d) (hs : Accumulates ys s) (hx : xs ≠ [])
    (hy : ys ≠ []) : MergeOverflows d s ↔ Clash xs ys := by
  have hx0 := length_pos hx
  have hy0 := length_pos hy
  obtain ⟨hmul, hadd⟩ := scale_eq hd hs
  have hsum : ¬ Overflowed (d.fsum + s.fsum) d.fsum s.fsum := by
    intro h
    obtain ⟨hi, hd', hs'⟩ := h
    obtain hi | hi := isInf_add hi
    · exact hd' hi
    · exact hs' hi
  have hmom : Overflowed (mergedSxx d.n d.fsum d.fsxx s.n s.fsum s.fsxx) d.fsxx s.fsxx ↔
      (d.fsxx.IsFin ∧ s.fsxx.IsFin) ∧ (meanDiff d.n d.fsum s.n s.fsum).IsInf := by
    rw [Overflowed, mergedSxx]
    constructor
    · intro h
      obtain ⟨hi, hd', hs'⟩ := h
      have hpair : ¬ (d.fsxx + s.fsxx).IsInf := by
        intro hp
        obtain hp | hp := isInf_add hp
        · exact hd' hp
        · exact hs' hp
      rw [isInf_add_iff hpair, hmul, hadd, isInf_div_fin (by positivity),
        isInf_fin_mul_mul_self (by positivity), isFin_add_iff] at hi
      exact hi
    · intro h
      obtain ⟨⟨⟨p, hp⟩, ⟨q, hq⟩⟩, hi⟩ := h
      rw [hp, hq, fin_add_fin]
      refine ⟨?_, not_isInf_fin, not_isInf_fin⟩
      rw [isInf_add_iff not_isInf_fin, hmul, hadd, isInf_div_fin (by positivity),
        isInf_fin_mul_mul_self (by positivity)]
      exact ⟨isFin_fin, hi⟩
  rw [MergeOverflows, or_iff_right hsum, hmom, meanDiff_isInf_iff hd hs hx hy, Clash]
  simp only [hd.lone_iff, hs.lone_iff, hd.allFin_iff, hs.allFin_iff, hx, hy, ne_eq,
    not_false_eq_true, true_and]
  constructor
  · intro h
    obtain ⟨⟨hdx, hsx⟩, ⟨t, ht, hf | hu⟩ | ⟨hf, t, ht⟩⟩ := h
    · exact .inl ⟨t, ⟨hdx, ht⟩, .inl ⟨hsx, hf⟩⟩
    · exact .inl ⟨t, ⟨hdx, ht⟩, .inr ⟨hsx, hu⟩⟩
    · exact .inr ⟨⟨hdx, hf⟩, t, hsx, ht⟩
  · intro h
    obtain ⟨t, ⟨hdx, ht⟩, ⟨hsx, hf⟩ | ⟨hsx, hu⟩⟩ | ⟨⟨hdx, hf⟩, t, hsx, ht⟩ := h
    · exact ⟨⟨hdx, hsx⟩, .inl ⟨t, ht, .inl hf⟩⟩
    · exact ⟨⟨hdx, hsx⟩, .inl ⟨t, ht, .inr hu⟩⟩
    · exact ⟨⟨hdx, hsx⟩, .inr ⟨hf, t, ht⟩⟩

end Accumulates

/-! ### Combining in order -/

/-- A combining function over states that have taken in values. -/
structure Combines {σ : Type} (R : List Float8 → σ → Prop)
    (step : σ → σ → Except FloatOverflow σ) : Prop where
  ok : ∀ {xs ys d s}, R xs d → R ys s → ¬ Clash xs ys → ∃ r, step d s = .ok r ∧ R (xs ++ ys) r
  clash : ∀ {xs ys d s}, R xs d → R ys s → Clash xs ys → step d s = .error .valueOutOfRange

theorem specMerge_combines : Combines Accumulates specMerge where
  ok := by
    intro xs ys d s hd hs hok
    rw [specMerge]
    by_cases hy : ys = []
    · subst hy
      rw [if_pos (hs.count_eq_zero_iff.mpr rfl)]
      exact ⟨d, rfl, by simpa using hd⟩
    rw [if_neg (fun h => hy (hs.count_eq_zero_iff.mp h))]
    by_cases hx : xs = []
    · subst hx
      rw [if_pos (hd.count_eq_zero_iff.mpr rfl)]
      exact ⟨_, rfl, ⟨hs.count, hs.fsum, hs.fsxx⟩⟩
    rw [if_neg (fun h => hx (hd.count_eq_zero_iff.mp h))]
    have hquiet := mt (hd.mergeOverflows_iff hs hx hy).mp hok
    exact ⟨d.merged s, if_neg hquiet, hd.merged hs hx hy⟩
  clash := by
    intro xs ys d s hd hs hc
    obtain ⟨hx, hy, -⟩ := id hc
    rw [specMerge, if_neg (fun h => hy (hs.count_eq_zero_iff.mp h)),
      if_neg (fun h => hx (hd.count_eq_zero_iff.mp h))]
    exact if_pos ((hd.mergeOverflows_iff hs hx hy).mpr hc)

/-- A transition array emitted for these values. -/
def Emitted (xs : List Float8) (state : Float8State) : Prop :=
  ∃ spec, Accumulates xs spec ∧ state = emitPartial spec

theorem emitPartial_N_eq_zero_iff {xs : List Float8} {d : AvgSpec} (h : Accumulates xs d) :
    (emitPartial d).N = 0 ↔ xs = [] := by
  rw [emitPartial, zero_def, ofNat, Extended.fin.injEq, Nat.cast_eq_zero, h.count_eq_zero_iff]

variable {core : Float8Avg}

theorem Float8Avg.Documented.combines (hcore : core.Documented) :
    Combines Emitted core.combine where
  ok := by
    intro xs ys state₁ state₂ h₁ h₂ hok
    obtain ⟨d, hd, rfl⟩ := h₁
    obtain ⟨s, hs, rfl⟩ := h₂
    by_cases hx : xs = []
    · subst hx
      rw [hcore.combine_left _ _ ((emitPartial_N_eq_zero_iff hd).mpr rfl)]
      exact ⟨_, rfl, s, hs, rfl⟩
    have hdN := mt (emitPartial_N_eq_zero_iff hd).mp hx
    by_cases hy : ys = []
    · subst hy
      rw [hcore.combine_right _ _ hdN ((emitPartial_N_eq_zero_iff hs).mpr rfl)]
      exact ⟨_, rfl, d, by simpa using hd, rfl⟩
    have hquiet := mt (hd.mergeOverflows_iff hs hx hy).mp hok
    rw [hcore.combine_both _ _ hdN (mt (emitPartial_N_eq_zero_iff hs).mp hy)]
    refine ⟨_, if_neg hquiet, d.merged s, hd.merged hs hx hy, ?_⟩
    simp [emitPartial, AvgSpec.merged, AvgSpec.n, ofNat]
  clash := by
    intro xs ys state₁ state₂ h₁ h₂ hc
    obtain ⟨d, hd, rfl⟩ := h₁
    obtain ⟨s, hs, rfl⟩ := h₂
    obtain ⟨hx, hy, -⟩ := id hc
    rw [hcore.combine_both _ _ (mt (emitPartial_N_eq_zero_iff hd).mp hx)
      (mt (emitPartial_N_eq_zero_iff hs).mp hy)]
    exact if_pos ((hd.mergeOverflows_iff hs hx hy).mpr hc)

/-- No part clashes with the values of the parts before it. -/
def CleanAfter : List Float8 → List (List Float8) → Prop
  | _, [] => True
  | xs, p :: ps => ¬ Clash xs p ∧ CleanAfter (xs ++ p) ps

variable {parts : List (List Float8)}

theorem Combines.foldlM {σ : Type} {R : List Float8 → σ → Prop}
    {step : σ → σ → Except FloatOverflow σ} (h : Combines R step)
    {states : List σ} (hparts : List.Forall₂ R parts states) : ∀ {xs d}, R xs d →
    (CleanAfter xs parts → ∃ r, states.foldlM step d = .ok r ∧ R (xs ++ parts.flatten) r) ∧
      (¬ CleanAfter xs parts → states.foldlM step d = .error .valueOutOfRange) := by
  induction hparts with
  | nil =>
    intro xs d hd
    exact ⟨fun _ => ⟨d, rfl, by simpa using hd⟩, fun hn => absurd trivial hn⟩
  | @cons p s ps ss hp _ ih =>
    intro xs d hd
    by_cases hc : Clash xs p
    · have herr : (s :: ss).foldlM step d = .error .valueOutOfRange := by
        rw [foldlM_cons, h.clash hd hp hc]
        rfl
      exact ⟨fun hclean => absurd hc hclean.1, fun _ => herr⟩
    · obtain ⟨r, hr, hacc⟩ := h.ok hd hp hc
      have hstep : (s :: ss).foldlM step d = ss.foldlM step r := by
        rw [foldlM_cons, hr]
        rfl
      obtain ⟨hok, herr⟩ := ih hacc
      rw [hstep]
      refine ⟨fun hclean => ?_, fun hn => herr fun hclean => hn ⟨hc, hclean⟩⟩
      obtain ⟨r', hr', hacc'⟩ := hok hclean.2
      exact ⟨r', hr', by simpa using hacc'⟩

/-! ### Quiet splits -/

/-- The first part with a value that is not finite holds more than an infinity. -/
def NotAlone : List (List Float8) → Prop
  | [] => True
  | p :: ps => if AllFin p then NotAlone ps else ∀ t, p ≠ [inf t]

/-- The splits that combine without an error, their empty parts left out.  If the first part with a
value that is not finite is a lone infinity, then it is the very first one, and the part behind it
has a value that is not finite and is not the lone opposite infinity. -/
def Quiet : List (List Float8) → Prop
  | [] => True
  | p :: ps =>
    if AllFin p then NotAlone ps
    else ∀ t, p = [inf t] → ∀ q ∈ ps.head?, ¬ AllFin q ∧ q ≠ [inf !t]

theorem not_clash_nil_left {ys : List Float8} : ¬ Clash [] ys := fun h => h.1 rfl

/-- Empty parts change nothing. -/
theorem cleanAfter_filter (parts : List (List Float8)) : ∀ xs,
    CleanAfter xs (parts.filter (· ≠ [])) ↔ CleanAfter xs parts := by
  induction parts with
  | nil => intro xs; rfl
  | cons p ps ih =>
    intro xs
    by_cases hp : p = []
    · subst hp
      have hdrop : ([] :: ps).filter (· ≠ []) = ps.filter (· ≠ [] : List Float8 → Prop) := by simp
      rw [hdrop, ih, CleanAfter, append_nil]
      exact (and_iff_right fun h => h.2.1 rfl).symm
    · rw [filter_cons_of_pos (by simpa using hp), CleanAfter, CleanAfter, ih]

/-- After a value that is not finite and is not alone nothing clashes. -/
theorem cleanAfter_of_mixed (parts : List (List Float8)) : ∀ {xs : List Float8}, ¬ AllFin xs →
    (∀ t, xs ≠ [inf t]) → CleanAfter xs parts := by
  induction parts with
  | nil => intro xs _ _; trivial
  | cons p ps ih =>
    intro xs hfin hlone
    refine ⟨?_, ih ?_ ?_⟩
    · intro hc
      obtain ⟨-, -, ⟨t, ht, -⟩ | ⟨hf, -⟩⟩ := hc
      · exact hlone t ht
      · exact hfin hf
    · intro h
      exact hfin fun x hx => h x (mem_append_left p hx)
    · intro t h
      obtain ⟨rfl, -⟩ | ⟨hx, -⟩ := append_eq_singleton_iff.mp h
      · exact hfin nofun
      · exact hlone t hx

theorem not_allFin_lone {t : Bool} : ¬ AllFin [inf t] := by
  intro h
  exact not_isFin_inf (h (inf t) (by simp))

theorem AllFin.append {xs ys : List Float8} (hx : AllFin xs) (hy : AllFin ys) :
    AllFin (xs ++ ys) := by
  intro x h
  obtain h | h := mem_append.mp h
  · exact hx x h
  · exact hy x h

/-- After finite values the first part with another value decides. -/
theorem cleanAfter_allFin_iff (hne : ∀ p ∈ parts, p ≠ []) :
    ∀ {xs : List Float8}, xs ≠ [] → AllFin xs → (CleanAfter xs parts ↔ NotAlone parts) := by
  induction parts with
  | nil => intro xs _ _; rfl
  | cons p ps ih =>
    intro xs hx hfin
    have hp := hne p (by simp)
    have ih := fun {xs} => @ih (fun q hq => hne q (by simp [hq])) xs
    have hclash : Clash xs p ↔ ∃ t, p = [inf t] := by
      constructor
      · intro h
        obtain ⟨-, -, ⟨t, rfl, -⟩ | ⟨-, h⟩⟩ := h
        · exact absurd hfin not_allFin_lone
        · exact h
      · intro h
        exact ⟨hx, hp, .inr ⟨hfin, h⟩⟩
    rw [CleanAfter, NotAlone, hclash]
    by_cases hpf : AllFin p
    · rw [if_pos hpf, ih (by simp [hx]) (hfin.append hpf)]
      apply and_iff_right
      intro h
      obtain ⟨t, rfl⟩ := h
      exact not_allFin_lone hpf
    · rw [if_neg hpf, not_exists]
      apply and_iff_left
      apply cleanAfter_of_mixed
      · intro h
        exact hpf fun x hx' => h x (mem_append_right xs hx')
      · intro t h
        obtain ⟨h, -⟩ | ⟨-, h⟩ := append_eq_singleton_iff.mp h
        · exact hx h
        · exact hp h

/-- The quiet splits are those in which no part clashes with the values before it. -/
theorem cleanAfter_iff_quiet (hne : ∀ p ∈ parts, p ≠ []) : CleanAfter [] parts ↔ Quiet parts := by
  cases parts with
  | nil => rfl
  | cons p ps =>
    have hp := hne p (by simp)
    have hps : ∀ q ∈ ps, q ≠ [] := fun q hq => hne q (by simp [hq])
    rw [CleanAfter, nil_append, and_iff_right not_clash_nil_left, Quiet]
    by_cases hpf : AllFin p
    · rw [if_pos hpf, cleanAfter_allFin_iff hps hp hpf]
    rw [if_neg hpf]
    by_cases hlone : ∃ t, p = [inf t]
    · obtain ⟨t, rfl⟩ := hlone
      cases ps with
      | nil => simp [CleanAfter]
      | cons q qs =>
        have hq := hps q (by simp)
        have hclash : Clash [inf t] q ↔ AllFin q ∨ q = [inf !t] := by
          constructor
          · intro h
            obtain ⟨-, -, ⟨u, hu, h⟩ | ⟨h, -⟩⟩ := h
            · obtain rfl : t = u := by simpa using hu
              exact h
            · exact absurd h not_allFin_lone
          · intro h
            exact ⟨by simp, hq, .inl ⟨t, rfl, h⟩⟩
        have hrest : CleanAfter ([inf t] ++ q) qs := by
          apply cleanAfter_of_mixed
          · intro h
            exact not_allFin_lone fun x hx => h x (mem_append_left q hx)
          · intro u h
            obtain ⟨h, -⟩ | ⟨-, h⟩ := append_eq_singleton_iff.mp h
            · exact absurd h (by simp)
            · exact hq h
        rw [CleanAfter, hclash, and_iff_left hrest, not_or]
        simp
    · rw [not_exists] at hlone
      constructor
      · intro _ t ht
        exact absurd ht (hlone t)
      · intro _
        exact cleanAfter_of_mixed ps hpf hlone

/-! ### The average -/

/-- The average of values, none of them null. -/
def average (xs : List Float8) : Option Float8 :=
  if xs = [] then none else some (xs.sum / ofNat xs.length)

theorem finalize_eq {xs : List Float8} {spec : AvgSpec} (h : Accumulates xs spec) :
    finalize spec = average xs := by
  rw [finalize, average]
  by_cases hx : xs = []
  · rw [if_pos hx, if_pos (h.count_eq_zero_iff.mpr hx)]
  · rw [if_neg hx, if_neg (mt h.count_eq_zero_iff.mp hx), h.fsum, h.count]

theorem avg_emitted (hcore : core.Documented) {xs : List Float8}
    {state : Float8State} (h : Emitted xs state) : core.avg state = average xs := by
  obtain ⟨spec, hspec, rfl⟩ := h
  rw [← finalize_eq hspec, finalize]
  have hN := emitPartial_N_eq_zero_iff hspec
  rw [← hspec.count_eq_zero_iff] at hN
  by_cases hc : spec.count = 0
  · rw [if_pos hc, hcore.avg_empty _ (hN.mpr hc)]
  · rw [if_neg hc, hcore.avg_rows _ (mt hN.mp hc)]
    rfl

/-- The one serial accumulation gives the average. -/
theorem serialAverage_eq (vals : List (Option Float8)) :
    serialAverage vals = .ok (average vals.reduceOption) := by
  obtain ⟨spec, hrun, hacc⟩ := accumulate_eq vals .zero
  rw [serialAverage, hrun]
  exact congrArg Except.ok (finalize_eq hacc)

theorem mapM_accumulate (parts : List (List (Option Float8))) :
    ∃ specs, parts.mapM (accumulate .zero) = .ok specs ∧
      List.Forall₂ Accumulates (parts.map List.reduceOption) specs := by
  induction parts with
  | nil => exact ⟨[], rfl, .nil⟩
  | cons p ps ih =>
    obtain ⟨spec, hrun, hacc⟩ := accumulate_eq p .zero
    obtain ⟨specs, hruns, haccs⟩ := ih
    refine ⟨spec :: specs, ?_, .cons hacc haccs⟩
    rw [mapM_cons, hrun, hruns]
    rfl

theorem reduceOption_flatten (parts : List (List (Option Float8))) :
    parts.flatten.reduceOption = (parts.map List.reduceOption).flatten := by
  induction parts with
  | nil => rfl
  | cons p ps ih => rw [flatten_cons, reduceOption_append, ih]; rfl

/-- The values of each part, the parts without a value left out. -/
def presentParts (parts : List (List (Option Float8))) : List (List Float8) :=
  (parts.map List.reduceOption).filter (· ≠ [])

theorem cleanAfter_iff_presentParts (parts : List (List (Option Float8))) :
    CleanAfter [] (parts.map List.reduceOption) ↔ Quiet (presentParts parts) := by
  rw [← cleanAfter_filter]
  apply cleanAfter_iff_quiet
  intro p hp
  simpa using (mem_filter.mp hp).2

/-- What combining the parts in order comes to. -/
def CombinesTo (r : Except FloatOverflow (Option Float8)) (parts : List (List (Option Float8))) :
    Prop :=
  (CleanAfter [] (parts.map List.reduceOption) → r = .ok (average parts.flatten.reduceOption)) ∧
    (¬ CleanAfter [] (parts.map List.reduceOption) → r = .error .valueOutOfRange)

theorem runsAverage_spec (parts : List (List (Option Float8))) :
    CombinesTo (runsAverage parts) parts := by
  obtain ⟨specs, hruns, haccs⟩ := mapM_accumulate parts
  rw [CombinesTo, runsAverage, hruns, reduceOption_flatten]
  generalize parts.map List.reduceOption = values at haccs ⊢
  cases haccs with
  | nil => exact ⟨fun _ => rfl, fun h => absurd trivial h⟩
  | @cons p spec ps specs hacc haccs =>
    -- the first run is loaded, which is merging it into nothing
    have hfirst : CleanAfter [] (p :: ps) ↔ CleanAfter p ps := and_iff_right not_clash_nil_left
    obtain ⟨hok, herr⟩ := specMerge_combines.foldlM haccs hacc
    rw [hfirst]
    constructor
    · intro hclean
      obtain ⟨d, hrun, hd⟩ := hok hclean
      change finalize <$> specs.foldlM specMerge spec = _
      rw [hrun, flatten_cons, ← finalize_eq hd]
      rfl
    · intro hclean
      change finalize <$> specs.foldlM specMerge spec = _
      rw [herr hclean]
      rfl

theorem workersAverage_spec (hcore : core.Documented)
    (parts : List (List (Option Float8))) : CombinesTo (workersAverage core parts) parts := by
  obtain ⟨specs, hruns, haccs⟩ := mapM_accumulate parts
  have hemit : List.Forall₂ Emitted (parts.map List.reduceOption) (specs.map emitPartial) := by
    rw [forall₂_map_right_iff]
    exact haccs.imp fun _ spec h => ⟨spec, h, rfl⟩
  have hzero : Emitted [] ⟨0, 0, 0⟩ := ⟨.zero, .zero, rfl⟩
  obtain ⟨hok, herr⟩ := hcore.combines.foldlM hemit hzero
  rw [CombinesTo, workersAverage, hruns, reduceOption_flatten]
  constructor
  · intro hclean
    obtain ⟨state, hrun, hstate⟩ := hok hclean
    change core.avg <$> (specs.map emitPartial).foldlM core.combine ⟨0, 0, 0⟩ = _
    rw [hrun]
    exact congrArg Except.ok (avg_emitted hcore hstate)
  · intro hclean
    change core.avg <$> (specs.map emitPartial).foldlM core.combine ⟨0, 0, 0⟩ = _
    rw [herr hclean]
    rfl

/-- No error, and the average of one serial accumulation. -/
def SameAverage (run : List (List (Option Float8)) → Except FloatOverflow (Option Float8))
    (parts : List (List (Option Float8))) : Prop :=
  ∃ r, serialAverage parts.flatten = .ok r ∧ run parts = .ok r

theorem sameAverage_iff {run : List (List (Option Float8)) → Except FloatOverflow (Option Float8)}
    {parts : List (List (Option Float8))} (h : CombinesTo (run parts) parts) :
    SameAverage run parts ↔ Quiet (presentParts parts) := by
  rw [SameAverage, serialAverage_eq, ← cleanAfter_iff_presentParts]
  constructor
  · intro hr
    obtain ⟨r, -, hr⟩ := hr
    by_contra hclean
    rw [h.2 hclean] at hr
    cases hr
  · intro hclean
    exact ⟨_, rfl, h.1 hclean⟩

/-- **Exactly the quiet splits give the serial average**, in runs and in workers. -/
theorem average_in_parts (core : Float8Avg) (hcore : core.Documented)
    (parts : List (List (Option Float8))) :
    (SameAverage runsAverage parts ↔ Quiet (presentParts parts)) ∧
      (SameAverage (workersAverage core) parts ↔ Quiet (presentParts parts)) :=
  ⟨sameAverage_iff (runsAverage_spec parts), sameAverage_iff (workersAverage_spec hcore parts)⟩

/-- Core's two functions as they are documented. -/
def float8Avg : Float8Avg where
  combine s t :=
    if s.N = 0 then
      .ok t
    else if t.N = 0 then
      .ok s
    else if Overflowed (s.Sx + t.Sx) s.Sx t.Sx ∨
        Overflowed (mergedSxx s.N s.Sx s.Sxx t.N t.Sx t.Sxx) s.Sxx t.Sxx then
      .error .valueOutOfRange
    else
      .ok ⟨s.N + t.N, s.Sx + t.Sx, mergedSxx s.N s.Sx s.Sxx t.N t.Sx t.Sxx⟩
  avg s := if s.N = 0 then none else some (s.Sx / s.N)

theorem float8Avg_documented : float8Avg.Documented where
  combine_left _ _ h := if_pos h
  combine_right _ _ h₁ h₂ := (if_neg h₁).trans (if_pos h₂)
  combine_both _ _ h₁ h₂ := (if_neg h₁).trans (if_neg h₂)
  avg_empty _ h := if_pos h
  avg_rows _ h := if_neg h

/-- An infinity and a number together, then a NaN: two workers give the serial average. -/
theorem average_in_parts_nan :
    SameAverage (workersAverage float8Avg) [[some (inf false), some (fin 5)], [none], [some nan]] :=
  (average_in_parts float8Avg float8Avg_documented _).2.mpr
    (by simp [presentParts, List.reduceOption, Quiet, AllFin])

/-- An infinity alone in its part and a number in the next one overflow. -/
theorem not_average_in_parts : ¬ ∀ parts : List (List (Option Float8)),
      SameAverage runsAverage parts ∧ SameAverage (workersAverage float8Avg) parts := by
  intro h
  obtain ⟨⟨r, -, hr⟩, -⟩ := h [[some (inf false)], [some (fin 5)]]
  have herr : runsAverage [[some (inf false)], [some (fin 5)]] = .error .valueOutOfRange := by
    decide +kernel
  rw [herr] at hr
  cases hr

end PgColumnar.Agg
