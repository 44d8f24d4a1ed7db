import Mathlib.Algebra.Order.BigOperators.Group.List
import Mathlib.Algebra.Order.Ring.Nat

/-!
# Maximal runs of a list

The run decomposition of a list: consecutive equal elements collected as a count
and a value.  `runsFrom` carries the run being extended, as a scanning loop does.

* `runs`, `runsFrom` — the decomposition.
* `flatMap_runs` — expanding the runs gives the list back.
* `runs_count_pos`, `runs_count_le` — every run is non-empty and no longer than
  the list.
-/

namespace Runs

open List

variable {α : Type} [DecidableEq α]

/-- The runs of a list in front of which `run` copies of `val` have been seen. -/
def runsFrom (val : α) (run : ℕ) : List α → List (ℕ × α)
  | [] => [(run, val)]
  | v :: vs => if v = val then runsFrom val (run + 1) vs else (run, val) :: runsFrom v 1 vs

/-- The maximal runs of a list, in order. -/
def runs : List α → List (ℕ × α)
  | [] => []
  | v :: vs => runsFrom v 1 vs

/-- Expanding the runs of the rest, behind the run in progress. -/
theorem flatMap_runsFrom (val : α) (run : ℕ) (vs : List α) :
    (runsFrom val run vs).flatMap (fun r => List.replicate r.1 r.2) =
      List.replicate run val ++ vs := by
  induction vs generalizing val run with
  | nil => simp [runsFrom]
  | cons v vs ih =>
    rw [runsFrom]
    split
    · next h => rw [ih, h, replicate_succ', append_assoc, singleton_append]
    · rw [flatMap_cons, ih]
      rfl

/-- **Expanding the runs gives the list back.** -/
theorem flatMap_runs (vs : List α) : (runs vs).flatMap (fun r => List.replicate r.1 r.2) = vs := by
  cases vs with
  | nil => rfl
  | cons v vs => exact flatMap_runsFrom v 1 vs

theorem sum_runs (vs : List α) : ((runs vs).map Prod.fst).sum = vs.length := by
  have h := congrArg List.length (flatMap_runs vs)
  rw [length_flatMap] at h
  simpa [Function.comp_def] using h

variable {vs : List α}

theorem runsFrom_count_pos {val : α} {run : ℕ} (hrun : 0 < run) :
    ∀ r ∈ runsFrom val run vs, 0 < r.1 := by
  induction vs generalizing val run with
  | nil => simpa [runsFrom] using hrun
  | cons v vs ih =>
    rw [runsFrom]
    split
    · exact ih (Nat.succ_pos run)
    · refine forall_mem_cons.mpr ⟨?_, ih Nat.one_pos⟩
      exact hrun

theorem runs_count_pos : ∀ r ∈ runs vs, 0 < r.1 := by
  cases vs with
  | nil => simp [runs]
  | cons v vs => exact runsFrom_count_pos Nat.one_pos

theorem runs_count_le : ∀ r ∈ runs vs, r.1 ≤ vs.length := by
  intro r hr
  rw [← sum_runs vs]
  exact single_le_sum (by simp) _ (mem_map_of_mem hr)

/-- The value of a run is an element of the list. -/
theorem mem_of_mem_runs : ∀ r ∈ runs vs, r.2 ∈ vs := by
  intro r hr
  have hmem : r.2 ∈ (runs vs).flatMap fun r => List.replicate r.1 r.2 := by
    rw [mem_flatMap]
    refine ⟨r, hr, ?_⟩
    rw [mem_replicate]
    exact ⟨(runs_count_pos r hr).ne', rfl⟩
  rwa [flatMap_runs] at hmem

end Runs
