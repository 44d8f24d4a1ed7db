import PgColumnar.Rewrite.Online

/-!
# What a rewrite reads

The read behind a rewrite in terms of row numbers: which rows it returns, that it returns
each once, and that the binary search of the recluster picks the rows of the listed
groups.
-/

namespace PgColumnar.Rewrite

open Mvcc List Nat Rewrite.Group

variable {α : Type} {s : Table α} {g g' : Group α} {snap : Snapshot} {i n : ℕ} {r : Row α}

/-! ## Rows of a group -/

theorem row?_eq_some : g.row? n = some r ↔ g.firstRow ≤ n ∧ g.rows[n - g.firstRow]? = some r := by
  unfold Group.row?
  split
  · next h => simp only [h, true_and]
  · next h => simp only [h, false_and, reduceCtorEq]

theorem covers_of_row? (h : g.row? n = some r) : g.covers n := by
  obtain ⟨hle, hget⟩ := row?_eq_some.mp h
  have hlt := (List.getElem?_eq_some_iff.mp hget).1
  exact ⟨hle, by omega⟩

theorem row?_of_covers (h : g.covers n) : ∃ r, g.row? n = some r := by
  obtain ⟨hle, hlt⟩ := h
  have hidx : n - g.firstRow < g.rows.length := by omega
  exact ⟨g.rows[n - g.firstRow], row?_eq_some.mpr ⟨hle, getElem?_eq_getElem hidx⟩⟩

theorem mem_of_row? (h : g.row? n = some r) : r ∈ g.rows :=
  mem_of_getElem? (row?_eq_some.mp h).2

theorem mem_read {f : Found α} : f ∈ g.read i ↔ f.group = i ∧ g.row? f.number = some f.row := by
  rw [Group.read, mem_map, row?_eq_some]
  constructor
  · rintro ⟨⟨r, k⟩, hmem, rfl⟩
    have hget : g.rows[k]? = some r := mem_zipIdx_iff_getElem?.mp hmem
    exact ⟨rfl, by simp, by simpa using hget⟩
  · rintro ⟨hgrp, hle, hget⟩
    refine ⟨(f.row, f.number - g.firstRow), mem_zipIdx_iff_getElem?.mpr hget, ?_⟩
    obtain ⟨fg, fn, fr⟩ := f
    subst hgrp
    simp only [Found.mk.injEq, true_and, and_true]
    exact Nat.add_sub_cancel' hle

theorem nodup_read : (g.read i).Nodup := by
  refine List.Nodup.of_map Found.number ?_
  rw [Group.read, map_map]
  have heq : (Found.number ∘ fun rk : Row α × ℕ => (⟨i, g.firstRow + rk.2, rk.1⟩ : Found α)) =
      (g.firstRow + ·) ∘ Prod.snd := rfl
  rw [heq, ← map_map, zipIdx_map_snd]
  exact (nodup_range').map fun a b h => Nat.add_left_cancel h

/-! ## Rows under a snapshot -/

theorem mem_readRows {f : Found α} :
    f ∈ s.readRows snap ↔ ∃ g, s.groups[f.group]? = some g ∧ s.groupVisible snap g = true ∧
      g.row? f.number = some f.row ∧ s.deleted snap f.number = false := by
  rw [Table.readRows, mem_flatMap]
  constructor
  · rintro ⟨⟨g, i⟩, hmem, hf⟩
    have hg : s.groups[i]? = some g := mem_zipIdx_iff_getElem?.mp hmem
    split at hf
    · next hvis =>
      obtain ⟨hread, hdel⟩ := mem_filter.mp hf
      obtain ⟨hgrp, hrow⟩ := mem_read.mp hread
      subst hgrp
      exact ⟨g, hg, hvis, hrow, by simpa using hdel⟩
    · cases hf
  · rintro ⟨g, hg, hvis, hrow, hdel⟩
    refine ⟨(g, f.group), mem_zipIdx_iff_getElem?.mpr hg, ?_⟩
    rw [if_pos hvis, mem_filter]
    exact ⟨mem_read.mpr ⟨rfl, hrow⟩, by rw [hdel]; rfl⟩

theorem nodup_readRows : (s.readRows snap).Nodup := by
  rw [Table.readRows, nodup_flatMap]
  constructor
  · rintro ⟨g, i⟩ _
    split
    · exact nodup_read.filter _
    · exact nodup_nil
  · have hidx : (s.groups.zipIdx.map Prod.snd).Nodup := by
      rw [zipIdx_map_snd]
      exact nodup_range'
    refine (pairwise_map.mp hidx).imp ?_
    rintro ⟨g, i⟩ ⟨g', j⟩ hij f hf hf'
    -- a row found in both would carry both group numbers
    have hi : f.group = i := by
      dsimp only at hf
      split at hf
      · exact (mem_read.mp (mem_filter.mp hf).1).1
      · cases hf
    have hj : f.group = j := by
      dsimp only at hf'
      split at hf'
      · exact (mem_read.mp (mem_filter.mp hf').1).1
      · cases hf'
    exact hij (hi.symm.trans hj)

/-! ## The binary search -/

/-- The row number is in one of the ranges from `lo` to before `hi`. -/
def InRanges (byRow : List (ℕ × ℕ)) (n lo hi : ℕ) : Prop :=
  ∃ k r, lo ≤ k ∧ k < hi ∧ byRow[k]? = some r ∧ r.1 ≤ n ∧ n < r.1 + r.2

theorem rowInListedGroups_iff {byRow : List (ℕ × ℕ)}
    (hsorted : byRow.Pairwise fun a b => a.1 + a.2 ≤ b.1) {lo hi : ℕ} (hhi : hi ≤ byRow.length) :
    rowInListedGroups byRow n lo hi = true ↔ InRanges byRow n lo hi := by
  have horder : ∀ {j k : ℕ} {a b : ℕ × ℕ}, byRow[j]? = some a → byRow[k]? = some b → j < k →
      a.1 + a.2 ≤ b.1 := by
    intro j k a b ha hb hjk
    obtain ⟨hj, rfl⟩ := List.getElem?_eq_some_iff.mp ha
    obtain ⟨hk, rfl⟩ := List.getElem?_eq_some_iff.mp hb
    exact pairwise_iff_getElem.mp hsorted j k hj hk hjk
  fun_induction rowInListedGroups byRow n lo hi with
  | case1 lo hi hlt mid hnone =>
    have : mid < byRow.length := by omega
    rw [getElem?_eq_getElem this] at hnone
    cases hnone
  | case2 lo hi hlt mid first count hmid hless ih =>
    refine (ih (by omega)).trans ?_
    constructor
    · rintro ⟨k, r, hlo, hk, hr⟩
      exact ⟨k, r, hlo, by omega, hr⟩
    · rintro ⟨k, r, hlo, hk, hr, hle, hin⟩
      refine ⟨k, r, hlo, ?_, hr, hle, hin⟩
      rcases lt_trichotomy k mid with h | h | h
      · exact h
      · subst h
        cases hmid.symm.trans hr
        omega
      · have := horder hmid hr h
        omega
  | case3 lo hi hlt mid first count hmid hless hpast ih =>
    refine (ih hhi).trans ?_
    constructor
    · rintro ⟨k, r, hlo, hk, hr⟩
      exact ⟨k, r, by omega, hk, hr⟩
    · rintro ⟨k, r, hlo, hk, hr, hle, hin⟩
      refine ⟨k, r, ?_, hk, hr, hle, hin⟩
      rcases lt_trichotomy k mid with h | h | h
      · have := horder hr hmid h
        omega
      · subst h
        cases hmid.symm.trans hr
        omega
      · exact h
  | case4 lo hi hlt mid first count hmid hless hpast =>
    refine iff_of_true rfl ⟨mid, (first, count), by omega, by omega, hmid, ?_, ?_⟩
    · exact Nat.le_of_not_lt hless
    · exact Nat.lt_of_not_le hpast
  | case5 lo hi hlt =>
    refine iff_of_false Bool.false_ne_true ?_
    rintro ⟨k, r, hlo, hk, _⟩
    omega

/-! ## The rows of a batch -/

/-- The row ranges of the groups: none is empty, and no two overlap. -/
structure Layout (groups : List (Group α)) : Prop where
  nonempty : ∀ (i : ℕ) (g : Group α), groups[i]? = some g → g.rows ≠ []
  apart : ∀ {i j : ℕ} {g g' : Group α}, groups[i]? = some g → groups[j]? = some g' → i ≠ j →
    g.firstRow + g.rows.length ≤ g'.firstRow ∨ g'.firstRow + g'.rows.length ≤ g.firstRow

/-- A row number is in one group. -/
theorem Layout.unique {groups : List (Group α)} {j : ℕ} (h : Layout groups)
    (hg : groups[i]? = some g) (hg' : groups[j]? = some g') (hn : g.covers n)
    (hn' : g'.covers n) : i = j := by
  by_contra hij
  obtain ⟨h1, h2⟩ := hn
  obtain ⟨h3, h4⟩ := hn'
  rcases h.apart hg hg' hij with h | h <;> omega

theorem pairwise_byRow {batch : List ℕ} (h : Layout s.groups) (hb : batch.Nodup) :
    (s.byRow batch).Pairwise fun a b => a.1 + a.2 ≤ b.1 := by
  let ranges := batch.filterMap fun i => (s.groups[i]?).map fun g => (g.firstRow, g.rows.length)
  have hmem : ∀ a ∈ ranges, 0 < a.2 := by
    intro a ha
    obtain ⟨i, _, hi⟩ := mem_filterMap.mp ha
    obtain ⟨g, hg, rfl⟩ := Option.map_eq_some_iff.mp hi
    exact length_pos_iff.mpr (h.nonempty i g hg)
  have hapart : ranges.Pairwise fun a b => a.1 + a.2 ≤ b.1 ∨ b.1 + b.2 ≤ a.1 := by
    refine pairwise_filterMap.mpr (hb.imp ?_)
    intro i j hij a ha b hb
    obtain ⟨g, hg, rfl⟩ := Option.map_eq_some_iff.mp ha
    obtain ⟨g', hg', rfl⟩ := Option.map_eq_some_iff.mp hb
    exact h.apart hg hg' hij
  have hperm : (s.byRow batch).Perm ranges := mergeSort_perm _ _
  have hsort : (s.byRow batch).Pairwise fun a b => a.1 ≤ b.1 :=
    (pairwise_mergeSort (fun a b c => by simpa using le_trans)
      (fun a b => by simpa using le_total a.1 b.1) ranges).imp (by simp)
  have hboth := hsort.and ((hperm.pairwise_iff (fun h => h.symm)).mpr hapart)
  refine hboth.imp_of_mem ?_
  intro a b ha hb' ⟨hle, hor⟩
  -- of the two ways to be apart, the sort leaves one
  have hpos := hmem b (hperm.mem_iff.mp hb')
  omega

theorem inRanges_byRow {batch : List ℕ} : InRanges (s.byRow batch) n 0 (s.byRow batch).length ↔
      ∃ i ∈ batch, ∃ g, s.groups[i]? = some g ∧ g.covers n := by
  constructor
  · rintro ⟨k, r, _, _, hr, hle, hlt⟩
    have hmem := mem_mergeSort.mp (mem_of_getElem? hr)
    obtain ⟨i, hi, hrange⟩ := mem_filterMap.mp hmem
    obtain ⟨g, hg, rfl⟩ := Option.map_eq_some_iff.mp hrange
    exact ⟨i, hi, g, hg, hle, hlt⟩
  · rintro ⟨i, hi, g, hg, hle, hlt⟩
    have hmem : (g.firstRow, g.rows.length) ∈ s.byRow batch := by
      refine mem_mergeSort.mpr (mem_filterMap.mpr ⟨i, hi, ?_⟩)
      rw [hg]
      rfl
    obtain ⟨k, hk⟩ := getElem?_of_mem hmem
    exact ⟨k, _, zero_le _, (List.getElem?_eq_some_iff.mp hk).1, hk, hle, hlt⟩

/-- Both kinds of rewrite copy the live rows of their batch. -/
theorem liveRows_eq {batch : List ℕ} (h : Layout s.groups) (hb : batch.Nodup) (kind : Kind α) :
    s.liveRows snap kind batch =
      ((s.readRows snap).filter fun f => decide (f.group ∈ batch)).map (·.row) := by
  unfold Table.liveRows
  congr 1
  refine filter_congr fun f hf => ?_
  cases kind with
  | compact num den maxGroups => rfl
  | recluster curveKey =>
    obtain ⟨g, hg, _, hrow, _⟩ := mem_readRows.mp hf
    rw [Bool.eq_iff_iff, decide_eq_true_eq,
      rowInListedGroups_iff (pairwise_byRow h hb) (le_refl _), inRanges_byRow]
    constructor
    · rintro ⟨i, hi, g', hg', hn⟩
      rw [h.unique hg hg' (covers_of_row? hrow) hn]
      exact hi
    · intro hi
      exact ⟨f.group, hi, g, hg, covers_of_row? hrow⟩

end PgColumnar.Rewrite
