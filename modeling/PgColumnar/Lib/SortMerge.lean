import Mathlib.Data.List.Pairwise
import Mathlib.Data.List.TakeWhile
import Mathlib.Data.List.Perm.Basic

/-!
# Runs of equal elements in a sorted list

In a list that is sorted by a preorder the elements that the preorder does not tell apart
stand side by side.  Reading the list from the front and comparing every element with the
first one of its run collects each class of equal elements once.
-/

namespace SortMerge

open List

variable {α : Type*} (same : α → α → Bool)

/-- The runs of a list: the first element, and the ones behind it that are the same. -/
def sortedRuns : List α → List (α × List α)
  | [] => []
  | x :: xs => (x, xs.takeWhile (same x)) :: sortedRuns (xs.dropWhile (same x))
termination_by l => l.length
decreasing_by
  have := (dropWhile_sublist (same x) (l := xs)).length_le
  simp only [length_cons]
  omega

variable {same}

/-- The elements of a run. -/
def elements (r : α × List α) : List α := r.1 :: r.2

theorem flatMap_elements (same : α → α → Bool) (l : List α) :
    (sortedRuns same l).flatMap elements = l := by
  fun_induction sortedRuns same l with
  | case1 => rfl
  | case2 x xs ih =>
    rw [flatMap_cons, ih]
    show x :: (xs.takeWhile (same x) ++ xs.dropWhile (same x)) = x :: xs
    rw [takeWhile_append_dropWhile]

theorem sortedRuns_map {β : Type*} {same : β → β → Bool} (f : α → β) (l : List α) :
    sortedRuns same (l.map f) =
      (sortedRuns (fun x y => same (f x) (f y)) l).map fun r => (f r.1, r.2.map f) := by
  fun_induction sortedRuns (fun x y => same (f x) (f y)) l with
  | case1 => rw [map_nil, sortedRuns, map_nil]
  | case2 x xs ih =>
    rw [map_cons, sortedRuns, takeWhile_map, dropWhile_map, map_cons]
    congr 1

/-- The elements that a preorder does not tell apart. -/
structure Classes (le : α → α → Prop) (same : α → α → Bool) : Prop where
  trans : ∀ a b c, le a b → le b c → le a c
  same_iff : ∀ a b, same a b = true ↔ le a b ∧ le b a

/-- Behind the first element that is not the same there is none that is. -/
theorem not_same_dropWhile {le : α → α → Prop} (h : Classes le same) {x : α} {xs : List α}
    (hsorted : (x :: xs).Pairwise le) : ∀ y ∈ xs.dropWhile (same x), same x y = false := by
  obtain ⟨hx, hxs⟩ := pairwise_cons.mp hsorted
  cases hdrop : xs.dropWhile (same x) with
  | nil => exact fun y hy => absurd hy not_mem_nil
  | cons z zs =>
    have hsub : List.Sublist (z :: zs) xs := by
      rw [← hdrop]
      exact dropWhile_sublist _
    have hz : same x z = false := by
      have hhead := head_dropWhile_not (same x) (l := xs) (by rw [hdrop]; simp)
      simpa [hdrop] using hhead
    have hpair := hxs.sublist hsub
    intro y hy
    rcases mem_cons.mp hy with rfl | hy
    · exact hz
    · by_contra hsame
      rw [Bool.not_eq_false, h.same_iff] at hsame
      have hzx := h.trans z y x ((pairwise_cons.mp hpair).1 y hy) hsame.2
      have hxz := hx z (hsub.subset mem_cons_self)
      rw [(h.same_iff x z).mpr ⟨hxz, hzx⟩] at hz
      cases hz

/-- **Each run is a class**: its elements are the same as its first one, and the first
elements of two runs are not the same. -/
theorem sortedRuns_spec {le : α → α → Prop} (h : Classes le same) (l : List α)
    (hsorted : l.Pairwise le) :
    (∀ r ∈ sortedRuns same l, r.1 ∈ l ∧ ∀ y ∈ r.2, same r.1 y = true) ∧
      (sortedRuns same l).Pairwise fun r r' => same r.1 r'.1 = false := by
  fun_induction sortedRuns same l with
  | case1 => exact ⟨fun r hr => absurd hr not_mem_nil, List.Pairwise.nil⟩
  | case2 x xs ih =>
    have hsub := dropWhile_sublist (same x) (l := xs)
    obtain ⟨hruns, hpair⟩ := ih ((pairwise_cons.mp hsorted).2.sublist hsub)
    refine ⟨?_, pairwise_cons.mpr ⟨?_, hpair⟩⟩
    · intro r hr
      rcases mem_cons.mp hr with rfl | hr
      · exact ⟨mem_cons_self, fun y hy => mem_takeWhile_imp hy⟩
      · obtain ⟨hmem, hsame⟩ := hruns r hr
        exact ⟨mem_cons_of_mem _ (hsub.subset hmem), hsame⟩
    · intro r hr
      exact not_same_dropWhile h hsorted r.1 (hruns r hr).1

end SortMerge
