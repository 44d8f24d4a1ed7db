import Mathlib.Algebra.Order.Ring.Nat
import PgColumnar.Visibility.Map

/-!
# A set bit and what it covers

A bit may stay set only while no delete of the block can still commit.  The vacuum
relies on two things for this: its test refuses a group with a flushed delete, and every
write path clears the bit.  A delete that was marked before the bit is set, and flushed
after the test, escapes both: the clear came too early and the test too late.

## Main definitions

* `Clean`, `Inv` — what a vacuum and a rewrite know of the blocks.
* `ok` — the steps in which no set bit is over a mark that may commit.

## Main results

* `safe_run` — a set bit keeps its promise in a run of such steps.
-/

namespace PgColumnar.Visibility

open Mvcc List Option Function Nat

variable {K : ℕ}

/-! ## The blocks of the merged runs -/

/-- The row is in one of the groups. -/
def Covered (groups : List Group) (n : ℕ) : Prop :=
  ∃ g ∈ groups, g.covers n

variable {g : Group} {n : ℕ} {hi : ℕ} {groups : List Group}

/-- Every row of a merged run is in one of the groups merged into it. -/
theorem covered_of_mem_mergeRuns {rest : List Group} {lo : ℕ} {r : ℕ × ℕ}
    (hrun : ∀ k, lo ≤ k → k < hi → Covered groups k) (hrest : ∀ g ∈ rest, g ∈ groups)
    (hr : r ∈ mergeRuns lo hi rest) (hlo : r.1 ≤ n) (hhi : n < r.2) : Covered groups n := by
  induction rest generalizing lo hi with
  | nil =>
    rw [mergeRuns, mem_singleton] at hr
    subst hr
    exact hrun n hlo hhi
  | cons g rest ih =>
    have hg : g ∈ groups := hrest g mem_cons_self
    have hrest' : ∀ g' ∈ rest, g' ∈ groups := fun g' h => hrest g' (mem_cons_of_mem _ h)
    rw [mergeRuns] at hr
    split at hr
    · next hle =>
      -- the run grows by `g`, which starts inside it or right after it
      refine ih ?_ hrest' hr
      intro k hk hlt
      by_cases hkhi : k < hi
      · exact hrun k hk hkhi
      · exact ⟨g, hg, le_trans hle (by omega), by omega⟩
    · rcases mem_cons.mp hr with rfl | hr
      · exact hrun n hlo hhi
      · exact ih (fun k hk hlt => ⟨g, hg, hk, hlt⟩) hrest' hr

theorem covered_of_mem_visibleRuns {r : ℕ × ℕ}
    (hr : r ∈ visibleRuns groups) (hlo : r.1 ≤ n) (hhi : n < r.2) : Covered groups n := by
  unfold visibleRuns at hr
  split at hr
  · cases hr
  · next g rest hsort =>
    have hmem : ∀ g' ∈ g :: rest, g' ∈ groups := by
      intro g' h
      rw [← hsort] at h
      exact mem_mergeSort.mp h
    have hrun : ∀ k, g.firstRow ≤ k → k < g.firstRow + g.rowCount → Covered groups k :=
      fun k hk hlt => ⟨g, hmem g mem_cons_self, hk, hlt⟩
    exact covered_of_mem_mergeRuns hrun (fun g' h => hmem g' (mem_cons_of_mem _ h)) hr hlo hhi

theorem le_of_mem_mergeRuns {rest : List Group} {lo N : ℕ} {r : ℕ × ℕ} (hlo : lo ≤ N) (hhi : hi ≤ N)
    (hrest : ∀ g ∈ rest, g.firstRow + g.rowCount ≤ N) (hr : r ∈ mergeRuns lo hi rest) :
    r.1 ≤ N ∧ r.2 ≤ N := by
  induction rest generalizing lo hi with
  | nil =>
    rw [mergeRuns, mem_singleton] at hr
    subst hr
    exact ⟨hlo, hhi⟩
  | cons g rest ih =>
    have hg := hrest g mem_cons_self
    have hrest' : ∀ g' ∈ rest, g'.firstRow + g'.rowCount ≤ N :=
      fun g' h => hrest g' (mem_cons_of_mem _ h)
    rw [mergeRuns] at hr
    split at hr
    · exact ih hlo (max_le hhi hg) hrest' hr
    · rcases mem_cons.mp hr with rfl | hr
      · exact ⟨hlo, hhi⟩
      · exact ih (by omega) hg hrest' hr

theorem le_of_mem_visibleRuns {r : ℕ × ℕ} {N : ℕ}
    (hle : ∀ g ∈ groups, g.firstRow + g.rowCount ≤ N) (hr : r ∈ visibleRuns groups) :
    r.1 ≤ N ∧ r.2 ≤ N := by
  unfold visibleRuns at hr
  split at hr
  · cases hr
  · next g rest hsort =>
    have hmem : ∀ g' ∈ g :: rest, g'.firstRow + g'.rowCount ≤ N := by
      intro g' h
      rw [← hsort] at h
      exact hle g' (mem_mergeSort.mp h)
    have hg := hmem g mem_cons_self
    exact le_of_mem_mergeRuns (by omega) hg (fun g' h => hmem g' (mem_cons_of_mem _ h)) hr

/-! ## Block numbers of 32 bits -/

/-- Below the invalid block number the cast changes nothing. -/
theorem blockNumber_div (h : n ≤ invalidBlockNumber * K) :
    blockNumber (n / K) = n / K := by
  apply mod_eq_of_lt
  rcases Nat.eq_zero_or_pos K with rfl | hK
  · rw [Nat.div_zero]
    exact succ_pos _
  · exact lt_succ_of_le (Nat.div_le_of_le_mul (by rwa [Nat.mul_comm]))

theorem blockNumber_ceil (h : n ≤ invalidBlockNumber * K) :
    blockNumber ((n + K - 1) / K) = (n + K - 1) / K := by
  apply mod_eq_of_lt
  rcases Nat.eq_zero_or_pos K with rfl | hK
  · rw [Nat.div_zero]
    exact succ_pos _
  · rw [Nat.div_lt_iff_lt_mul hK, Nat.add_mul]
    omega

/-- A block within `[lo, hi)` has only rows of `[lo, hi)`. -/
theorem within_of_mem_blocksWithin {lo : ℕ} (hl : lo ≤ invalidBlockNumber * K)
    (hh : hi ≤ invalidBlockNumber * K) (h : n / K ∈ blocksWithin K lo hi) : lo ≤ n ∧ n < hi := by
  rw [blocksWithin, mem_range'_1, blockNumber_div hh, blockNumber_ceil hl] at h
  obtain ⟨hlo, hhi⟩ := h
  have hb : n / K < hi / K := by omega
  have hK : 0 < K := by
    rcases Nat.eq_zero_or_pos K with rfl | hK
    · simp at hb
    · exact hK
  constructor
  · have h1 : lo + K - 1 < K * (n / K + 1) := by
      rw [Nat.mul_comm]
      exact (div_lt_iff_lt_mul hK).mp (lt_succ_of_le hlo)
    have h2 := mul_div_le n K
    rw [Nat.mul_add, Nat.mul_one] at h1
    omega
  · exact lt_of_div_lt_div hb

theorem mem_visibleBlocks (hle : ∀ g ∈ groups, g.firstRow + g.rowCount ≤ invalidBlockNumber * K)
    (h : n / K ∈ visibleBlocks K groups) : Covered groups n := by
  obtain ⟨r, hr, hb⟩ := mem_flatMap.mp h
  obtain ⟨hl, hh⟩ := le_of_mem_visibleRuns hle hr
  obtain ⟨hlo, hhi⟩ := within_of_mem_blocksWithin hl hh hb
  exact covered_of_mem_visibleRuns hr hlo hhi

/-! ## Clearing bits -/

variable {bits : ℕ → Bool}

theorem vmClearForRow_eq_true {row b : ℕ}
    (h : vmClearForRow K bits row b = true) : b ≠ blockNumber (row / K) ∧ bits b = true := by
  have hne : b ≠ blockNumber (row / K) := by
    rintro rfl
    rw [vmClearForRow, update_self] at h
    cases h
  rw [vmClearForRow, update_of_ne hne] at h
  exact ⟨hne, h⟩

variable {first count : ℕ}

theorem vmClearForRowRange_le {b : ℕ}
    (h : vmClearForRowRange K bits first count b = true) : bits b = true := by
  unfold vmClearForRowRange at h
  split at h
  · exact h
  · dsimp only at h
    split_ifs at h
    exact h

theorem vmClearForRowRange_covers (hle : g.firstRow + g.rowCount ≤ invalidBlockNumber * K)
    (hn : g.covers n) : vmClearForRowRange K bits g.firstRow g.rowCount (n / K) = false := by
  obtain ⟨hlo, hhi⟩ := hn
  unfold vmClearForRowRange
  rw [if_neg (by omega), blockNumber_div (by omega), blockNumber_div (by omega)]
  exact if_pos ⟨Nat.div_le_div_right hlo, Nat.div_le_div_right (by omega)⟩

/-! ## The invariant -/

/-- The group of row `n` is settled and can no longer be retired by a transaction that
has tried to. -/
structure Clean (c : Clock) (g : Group) (n : ℕ) : Prop where
  covers : g.covers n
  inserter : c.Settled g.inserter
  retirer : ∀ x, g.retirer = some x → c.status x = .aborted

structure Inv (K : ℕ) (s : Table) : Prop where
  wf : s.clock.Wf
  /-- A row number is in one group. -/
  disjoint : ∀ {i j n : ℕ} {g g' : Group}, s.groups[i]? = some g → s.groups[j]? = some g' →
    g.covers n → g'.covers n → i = j
  /-- The rows of a set block are in clean groups. -/
  clean : ∀ n, s.bits (n / K) = true → ∃ (i : ℕ) (g : Group), s.groups[i]? = some g ∧
    Clean s.clock g n
  /-- The marks on rows of a set block are void. -/
  unmarked : ∀ n, s.bits (n / K) = true → ∀ m ∈ s.marks, m.row = n → s.clock.status m.xid = .aborted
  /-- So are the groups of the blocks that a vacuum has still to set. -/
  setting : ∀ bs, s.maint = .setting bs → ∀ n, n / K ∈ bs →
    ∃ (i : ℕ) (g : Group), s.groups[i]? = some g ∧ Clean s.clock g n
  /-- The bits of the groups a rewrite has cleared stay clear until it ends. -/
  cleared : ∀ x cl, s.maint = .rewrite x cl → ∀ i ∈ cl, ∀ g, s.groups[i]? = some g →
    ∀ n, g.covers n → s.bits (n / K) = false
  /-- A group is retired by the rewrite that is under way or by one that has ended. -/
  retirer : ∀ (i : ℕ) (g : Group), s.groups[i]? = some g → ∀ x, g.retirer = some x →
    s.clock.status x = .committed ∨ s.clock.status x = .aborted ∨ ∃ cl, s.maint = .rewrite x cl
  horizon : ∀ h, s.maint = .vacuum h → s.clock.IsHorizon h
  /-- Every row number has a block. -/
  bound : ∀ g ∈ s.groups, g.firstRow + g.rowCount ≤ invalidBlockNumber * K

theorem Inv.init : Inv K Table.init where
  wf := Clock.Wf.init
  disjoint h := by simp [Table.init] at h
  clean n h := by simp [Table.init] at h
  unmarked n h := by simp [Table.init] at h
  setting bs h := by simp [Table.init] at h
  cleared x cl h := by simp [Table.init] at h
  retirer i g h := by simp [Table.init] at h
  horizon h hm := by simp [Table.init] at hm
  bound g h := by simp [Table.init] at h

variable {s s' : Table}

theorem Clean.tick {c : Clock} {c' : Clock} (h : Clean c g n) (hwf : c.Wf)
    (hn : Clock.Next c c') : Clean c' g n :=
  ⟨h.covers, h.inserter.step hwf hn, fun x hx => hn.aborted hwf (h.retirer x hx)⟩

/-- The clock moves on; a rewrite that ends gives up the table. -/
theorem Inv.tick {c : Clock} (hi : Inv K s) {m : Maint} (hn : Clock.Next s.clock c)
    (hm : m = s.maint ∨ m = .free)
    (hend : ∀ x cl, s.maint = .rewrite x cl → m = s.maint ∨
      c.status x = .committed ∨ c.status x = .aborted) :
    Inv K { s with clock := c, maint := m } where
  wf := hi.wf.step hn
  disjoint := hi.disjoint
  clean n hb := by
    obtain ⟨i, g, hg, hc⟩ := hi.clean n hb
    exact ⟨i, g, hg, hc.tick hi.wf hn⟩
  unmarked n hb mk hmk hrow := hn.aborted hi.wf (hi.unmarked n hb mk hmk hrow)
  setting bs hbs n hb := by
    rcases hm with rfl | rfl
    · obtain ⟨i, g, hg, hc⟩ := hi.setting bs hbs n hb
      exact ⟨i, g, hg, hc.tick hi.wf hn⟩
    · cases hbs
  cleared x cl hmx := by
    rcases hm with rfl | rfl
    · exact hi.cleared x cl hmx
    · cases hmx
  retirer i g hg x hx := by
    rcases hi.retirer i g hg x hx with h | h | ⟨cl, h⟩
    · exact .inl (hn.committed hi.wf h)
    · exact .inr (.inl (hn.aborted hi.wf h))
    · rcases hend x cl h with hm | hc | ha
      · exact .inr (.inr ⟨cl, by rw [← h]; exact hm⟩)
      · exact .inl hc
      · exact .inr (.inl ha)
  horizon h hmh := by
    rcases hm with rfl | rfl
    · exact (hi.horizon h hmh).step hi.wf hn
    · cases hmh
  bound := hi.bound

theorem Inv.clock {c : Clock} (hi : Inv K s) (hn : Clock.Next s.clock c) :
    Inv K { s with clock := c } :=
  hi.tick hn (.inl rfl) fun _ _ _ => .inl rfl

variable {x : ℕ}

theorem Inv.finish (hi : Inv K s) {st : Status} (hx : s.clock.status x = .running)
    (hst : st = .committed ∨ st = .aborted) : Inv K (s.finish x st) := by
  have hn : Clock.Next s.clock (s.clock.finish [x] st) := by
    refine .finish (fun y hy => ?_) hst
    rw [mem_singleton.mp hy]
    exact hx
  have hended : (s.clock.finish [x] st).status x = .committed ∨
      (s.clock.finish [x] st).status x = .aborted := by
    rw [Clock.finish_status_of_mem mem_cons_self]
    exact hst
  refine hi.tick hn ?_ ?_
  · cases hm : s.maint with
    | rewrite y cl =>
      dsimp only
      split
      · exact .inr rfl
      · exact .inl rfl
    | _ => exact .inl rfl
  · intro y cl hm
    rw [hm]
    dsimp only
    split
    · next heq =>
      rw [heq]
      exact .inr hended
    · exact .inl rfl

/-- Clearing bits, moving a vacuum or rewrite on where its own facts are kept. -/
theorem Inv.clear (hi : Inv K s) (hb : ∀ b, bits b = true → s.bits b = true) :
    Inv K { s with bits := bits } :=
  { hi with
    clean n h := hi.clean n (hb _ h)
    unmarked n h := hi.unmarked n (hb _ h)
    cleared x cl hm i hic g hg n hn := by
      have hold := hi.cleared x cl hm i hic g hg n hn
      refine Bool.eq_false_iff.mpr fun hnew => ?_
      rw [hb _ hnew] at hold
      cases hold }

/-- The vacuum gives up the table. -/
theorem Inv.release (hi : Inv K s) (hm : ∀ x cl, s.maint ≠ .rewrite x cl) :
    Inv K { s with maint := .free } :=
  hi.tick .refl (.inr rfl) fun x cl h => absurd h (hm x cl)

/-! ## One step -/

theorem Inv.lock (hi : Inv K s) (l : List (ℕ × ℕ)) : Inv K { s with locks := l } := by
  obtain ⟨h1, h2, h3, h4, h5, h6, h7, h8, h9⟩ := hi
  exact ⟨h1, h2, h3, h4, h5, h6, h7, h8, h9⟩

/-- Who takes the free table keeps what was there. -/
theorem Inv.take (hi : Inv K s) (hm : s.maint = .free) {m : Maint} (hset : ∀ bs, m ≠ .setting bs)
    (hcl : ∀ x cl, m = .rewrite x cl → cl = [])
    (hh : ∀ h, m = .vacuum h → s.clock.IsHorizon h) : Inv K { s with maint := m } := by
  refine ⟨hi.wf, hi.disjoint, hi.clean, hi.unmarked, ?_, ?_, ?_, hh, hi.bound⟩
  · intro bs hbs
    exact absurd hbs (hset bs)
  · intro x cl hx i hic
    rw [hcl x cl hx] at hic
    cases hic
  · intro i g hg x hx
    rcases hi.retirer i g hg x hx with hc | ha | ⟨cl, h⟩
    · exact .inl hc
    · exact .inr (.inl ha)
    · rw [hm] at h
      cases h

theorem Inv.markRowDeleted (hi : Inv K s) (x : ℕ) {row : ℕ} (hrow : row ≤ invalidBlockNumber * K) :
    Inv K { s with
      marks := s.marks ++ [⟨x, row, false⟩]
      bits := vmClearForRow K s.bits row } := by
  have h := hi.clear (show ∀ b, vmClearForRow K s.bits row b = true → s.bits b = true from
    fun b hb => (vmClearForRow_eq_true hb).2)
  refine ⟨h.wf, h.disjoint, h.clean, ?_, h.setting, h.cleared, h.retirer, h.horizon, h.bound⟩
  intro n hb m hm hmrow
  rcases mem_append.mp hm with hm | hm
  · exact h.unmarked n hb m hm hmrow
  · -- the bit of the row marked here has just been cleared
    rw [mem_singleton.mp hm] at hmrow
    subst hmrow
    exact absurd (blockNumber_div hrow).symm (vmClearForRow_eq_true hb).1

theorem Inv.flushDeleteVector (hi : Inv K s) (x : ℕ) (g : Group) (l : List (ℕ × ℕ)) :
    Inv K { s with marks := s.flushMarks x g, locks := l } := by
  refine ⟨hi.wf, hi.disjoint, hi.clean, ?_, hi.setting, hi.cleared, hi.retirer, hi.horizon,
    hi.bound⟩
  intro n hb m hm hrow
  obtain ⟨m', hm', rfl⟩ := mem_map.mp hm
  split at hrow
  · next h => rw [if_pos h]; exact hi.unmarked n hb m' hm' hrow
  · next h => rw [if_neg h]; exact hi.unmarked n hb m' hm' hrow

/-- A row of a fresh range is in no group. -/
theorem not_covers_of_freshRange {i : ℕ}
    (hf : s.freshRange first count = true) (hg : s.groups[i]? = some g) (hn : g.covers n)
    (hlo : first ≤ n) : ¬ n < first + count := by
  have h := all_eq_true.mp hf g (mem_of_getElem? hg)
  simp only [Group.overlaps, Bool.not_eq_true', Bool.and_eq_false_iff, decide_eq_false_iff_not] at h
  obtain ⟨h1, h2⟩ := hn
  omega

theorem Inv.flushRowGroup (hi : Inv K s) {l : List (ℕ × ℕ)} (hf : s.freshRange first count = true)
    (hle : first + count ≤ invalidBlockNumber * K) :
    Inv K { s with groups := s.groups ++ [⟨first, count, x, none⟩], locks := l } := by
  have hold : ∀ {i : ℕ} {g : Group}, s.groups[i]? = some g →
      (s.groups ++ [(⟨first, count, x, none⟩ : Group)])[i]? = some g := by
    intro i g hg
    rw [List.getElem?_append_left (List.getElem?_eq_some_iff.mp hg).1]
    exact hg
  have hnew : ∀ {i : ℕ} {g : Group}, (s.groups ++ [(⟨first, count, x, none⟩ : Group)])[i]? =
    some g →
      s.groups[i]? = some g ∨ i = s.groups.length ∧ g = ⟨first, count, x, none⟩ := by
    intro i g hg
    rw [getElem?_append] at hg
    split at hg
    · exact .inl hg
    · next hlen =>
      rw [getElem?_singleton] at hg
      split_ifs at hg
      exact .inr ⟨by omega, (Option.some.inj hg).symm⟩
  refine ⟨hi.wf, ?_, ?_, hi.unmarked, ?_, ?_, ?_, hi.horizon,
    forall_mem_append.mpr ⟨hi.bound, forall_mem_singleton.mpr hle⟩⟩
  · intro i j n g g' hg hg' hn hn'
    rcases hnew hg with hg | ⟨rfl, rfl⟩ <;> rcases hnew hg' with hg' | ⟨rfl, rfl⟩
    · exact hi.disjoint hg hg' hn hn'
    · exact absurd hn'.2 (not_covers_of_freshRange hf hg hn hn'.1)
    · exact absurd hn.2 (not_covers_of_freshRange hf hg' hn' hn.1)
    · rfl
  · intro n hb
    obtain ⟨i, g, hg, hc⟩ := hi.clean n hb
    exact ⟨i, g, hold hg, hc⟩
  · intro bs hbs n hb
    obtain ⟨i, g, hg, hc⟩ := hi.setting bs hbs n hb
    exact ⟨i, g, hold hg, hc⟩
  · intro y cl hm i hic g hg n hn
    rcases hnew hg with hg | ⟨rfl, rfl⟩
    · exact hi.cleared y cl hm i hic g hg n hn
    · -- a set bit would put a row of the fresh range into an older group
      cases hb : s.bits (n / K) with
      | false => rfl
      | true =>
        obtain ⟨j, g', hg', hc⟩ := hi.clean n hb
        exact absurd hn.2 (not_covers_of_freshRange hf hg' hc.covers hn.1)
  · intro i g hg y hy
    rcases hnew hg with hg | ⟨rfl, rfl⟩
    · exact hi.retirer i g hg y hy
    · cases hy

theorem Inv.rewriteClear (hi : Inv K s) {i : ℕ} {cl : List ℕ}
    (hm : s.maint = .rewrite x cl) (hg : s.groups[i]? = some g) :
    Inv K { s with
      bits := vmClearForRowRange K s.bits g.firstRow g.rowCount
      maint := .rewrite x (i :: cl) } := by
  have h := hi.clear (show ∀ b, vmClearForRowRange K s.bits g.firstRow g.rowCount b = true →
    s.bits b = true from fun b hb => vmClearForRowRange_le hb)
  refine ⟨h.wf, h.disjoint, h.clean, h.unmarked, ?_, ?_, ?_, ?_, h.bound⟩
  · intro bs hbs
    cases hbs
  · intro y cl' hm' j hj g' hg' n hn
    cases hm'
    rcases mem_cons.mp hj with rfl | hj
    · cases hg.symm.trans hg'
      exact vmClearForRowRange_covers (h.bound g (mem_of_getElem? hg)) hn
    · exact h.cleared x cl hm j hj g' hg' n hn
  · intro j g' hg' y hy
    rcases h.retirer j g' hg' y hy with hc | ha | ⟨cl', hm'⟩
    · exact .inl hc
    · exact .inr (.inl ha)
    · have : Maint.rewrite x cl = .rewrite y cl' := hm.symm.trans hm'
      cases this
      exact .inr (.inr ⟨_, rfl⟩)
  · intro h' hm'
    cases hm'

theorem Inv.rewriteRetire (hi : Inv K s) {i : ℕ} {cl : List ℕ}
    (hm : s.maint = .rewrite x cl) (hg : s.groups[i]? = some g) (hic : i ∈ cl) :
    Inv K { s with groups := s.groups.set i { g with retirer := some x } } := by
  have hlt : i < s.groups.length := (List.getElem?_eq_some_iff.mp hg).1
  -- a group after the step has the range of the group that was in its place
  have hset : ∀ {j : ℕ} {g' : Group}, (s.groups.set i { g with retirer := some x })[j]? = some g' →
      ∃ g₀, s.groups[j]? = some g₀ ∧ (∀ n, g'.covers n ↔ g₀.covers n) ∧
        (j ≠ i ∧ g' = g₀ ∨ j = i ∧ g' = { g with retirer := some x }) := by
    intro j g' h
    by_cases hji : j = i
    · subst hji
      cases (getElem?_set_self hlt).symm.trans h
      exact ⟨g, hg, fun n => Iff.rfl, .inr ⟨rfl, rfl⟩⟩
    · rw [getElem?_set_ne (Ne.symm hji)] at h
      exact ⟨g', h, fun n => Iff.rfl, .inl ⟨hji, rfl⟩⟩
  refine ⟨hi.wf, ?_, ?_, hi.unmarked, ?_, ?_, ?_, hi.horizon, ?_⟩
  · intro j k n g₁ g₂ h₁ h₂ hn₁ hn₂
    obtain ⟨g₁', hg₁, hc₁, _⟩ := hset h₁
    obtain ⟨g₂', hg₂, hc₂, _⟩ := hset h₂
    exact hi.disjoint hg₁ hg₂ ((hc₁ n).mp hn₁) ((hc₂ n).mp hn₂)
  · intro n hb
    obtain ⟨j, g', hg', hc⟩ := hi.clean n hb
    have hji : j ≠ i := by
      rintro rfl
      -- the group has been cleared, so its rows have no bit
      have hclear := hi.cleared x cl hm j hic g' hg' n hc.covers
      rw [hclear] at hb
      cases hb
    exact ⟨j, g', by rw [getElem?_set_ne (Ne.symm hji)]; exact hg', hc⟩
  · intro bs hbs
    rw [show s.maint = .setting bs from hbs] at hm
    cases hm
  · intro y cl' hm' j hj g' hg' n hn
    obtain ⟨g₀, hg₀, hc, _⟩ := hset hg'
    exact hi.cleared y cl' hm' j hj g₀ hg₀ n ((hc n).mp hn)
  · intro j g' hg' y hy
    obtain ⟨g₀, hg₀, _, ⟨_, rfl⟩ | ⟨_, rfl⟩⟩ := hset hg'
    · exact hi.retirer j g' hg₀ y hy
    · cases hy
      exact .inr (.inr ⟨cl, hm⟩)
  · intro g' hg'
    rcases mem_or_eq_of_mem_set hg' with hg' | rfl
    · exact hi.bound g' hg'
    · exact hi.bound g (mem_of_getElem? hg)

/-- The groups that a vacuum lists are clean: what is below its horizon is settled, and
no rewrite runs beside it. -/
theorem Inv.clean_of_computed (hi : Inv K s) {h : ℕ} (hm : s.maint = .vacuum h)
    (hn : Covered (s.computeAllVisibleGroups h) n) :
    ∃ (i : ℕ) (g : Group), s.groups[i]? = some g ∧ Clean s.clock g n := by
  obtain ⟨g, hg, hcov⟩ := hn
  obtain ⟨hmem, hkeep⟩ := mem_filter.mp hg
  simp only [Bool.and_eq_true, decide_eq_true_eq, Table.listed] at hkeep
  obtain ⟨⟨⟨⟨hcom, hret⟩, hlt⟩, _⟩, _⟩ := hkeep
  obtain ⟨i, hi'⟩ := getElem?_of_mem hmem
  refine ⟨i, g, hi', hcov, (hi.horizon h hm).settled hcom hlt, fun x hx => ?_⟩
  rw [hx] at hret
  rcases hi.retirer i g hi' x hx with hc | ha | ⟨cl, hcl⟩
  · exact absurd hc (of_decide_eq_true hret)
  · exact ha
  · rw [hm] at hcl
    cases hcl

theorem Inv.vacuumCompute (hi : Inv K s) {h : ℕ} (hm : s.maint = .vacuum h) : Inv K { s with
      maint := .setting (visibleBlocks K (s.computeAllVisibleGroups h)) } := by
  have hle : ∀ g ∈ s.computeAllVisibleGroups h, g.firstRow + g.rowCount ≤ invalidBlockNumber * K :=
    fun g hg => hi.bound g (mem_filter.mp hg).1
  refine ⟨hi.wf, hi.disjoint, hi.clean, hi.unmarked, ?_, ?_, ?_, ?_, hi.bound⟩
  · intro bs hbs n hn
    cases hbs
    obtain ⟨i, g, hg, hc⟩ := hi.clean_of_computed hm (mem_visibleBlocks hle hn)
    exact ⟨i, g, hg, hc⟩
  · intro x cl h'
    cases h'
  · intro i g hg x hx
    rcases hi.retirer i g hg x hx with hc | ha | ⟨cl, hcl⟩
    · exact .inl hc
    · exact .inr (.inl ha)
    · rw [hm] at hcl
      cases hcl
  · intro h' h''
    cases h''

/-- The block that the vacuum sets next. -/
def Maint.nextBlock : Maint → Option ℕ
  | .setting (b :: _) => some b
  | _ => none

/-- The end of the row range that the step writes. -/
def Action.rowsEnd (s : Table) : Action → ℕ
  | .flushRowGroup _ first count => first + count
  | .rewriteCopy _ i first => (s.groups[i]?).elim 0 fun g => first + s.liveCount g
  | _ => 0

/-- What the code does not check: no mark on the block that the vacuum sets may still commit,
and the rows written have blocks of their own. -/
def ok (K : ℕ) (s : Table) (a : Action) : Prop :=
  (a = .vacuumSet → ∀ b ∈ s.maint.nextBlock, ∀ m ∈ s.marks, blockNumber (m.row / K) = b →
    s.clock.status m.xid = .aborted) ∧ a.rowsEnd s ≤ invalidBlockNumber * K

instance (s : Table) (a : Action) : Decidable (ok K s a) :=
  inferInstanceAs (Decidable ((_ → ∀ b ∈ _, _) ∧ _))

theorem Inv.vacuumSet (hi : Inv K s) {b : ℕ} {rest : List ℕ} (hm : s.maint = .setting (b :: rest))
    (hok : ∀ m ∈ s.marks, blockNumber (m.row / K) = b → s.clock.status m.xid = .aborted) :
    Inv K { s with bits := update s.bits b true, maint := .setting rest } := by
  have hbit : ∀ n, update s.bits b true (n / K) = true → n / K = b ∨ s.bits (n / K) = true := by
    intro n h
    by_cases hb : n / K = b
    · exact .inl hb
    · rw [update_of_ne hb] at h
      exact .inr h
  refine ⟨hi.wf, hi.disjoint, ?_, ?_, ?_, ?_, ?_, ?_, hi.bound⟩
  · intro n hb
    rcases hbit n hb with hb | hb
    · obtain ⟨i, g, hg, hc⟩ := hi.setting _ hm n (by rw [hb]; exact mem_cons_self)
      exact ⟨i, g, hg, hc⟩
    · obtain ⟨i, g, hg, hc⟩ := hi.clean n hb
      exact ⟨i, g, hg, hc⟩
  · intro n hb m hmem hrow
    rcases hbit n hb with hb | hb
    · -- the row is in a group, so the block is its own
      obtain ⟨i, g, hg, hc⟩ := hi.setting _ hm n (by rw [hb]; exact mem_cons_self)
      have hle := hi.bound g (mem_of_getElem? hg)
      have hlt := hc.covers.2
      exact hok m hmem (by rw [hrow, blockNumber_div (by omega)]; exact hb)
    · exact hi.unmarked n hb m hmem hrow
  · intro bs hbs n hn
    cases hbs
    obtain ⟨i, g, hg, hc⟩ := hi.setting _ hm n (mem_cons_of_mem _ hn)
    exact ⟨i, g, hg, hc⟩
  · intro x cl h
    cases h
  · intro i g hg x hx
    rcases hi.retirer i g hg x hx with hc | ha | ⟨cl, hcl⟩
    · exact .inl hc
    · exact .inr (.inl ha)
    · rw [hm] at hcl
      cases hcl
  · intro h hm'
    cases hm'

theorem Inv.step {a : Action} (hi : Inv K s) (hok : ok K s a) (h : step K s a = some s') :
    Inv K s' := by
  cases a with
  | begin =>
    cases h
    exact hi.clock .begin
  | commit x =>
    obtain ⟨hx, h⟩ := ite_none_right_eq_some.mp h
    cases h
    exact hi.finish hx.1 (.inl rfl)
  | abort x =>
    obtain ⟨hx, h⟩ := ite_none_right_eq_some.mp h
    cases h
    exact hi.finish hx (.inr rfl)
  | takeSnapshot =>
    cases h
    exact hi.clock .takeSnapshot
  | dropSnapshot i =>
    cases h
    exact hi.clock (.dropSnapshot i)
  | writeRow x row =>
    obtain ⟨_, h⟩ := ite_none_right_eq_some.mp h
    cases h
    -- with fewer bits set, less is promised
    exact hi.clear fun b hb => (vmClearForRow_eq_true hb).2
  | flushRowGroup x first count =>
    obtain ⟨hx, h⟩ := ite_none_right_eq_some.mp h
    cases h
    exact hi.flushRowGroup hx.2 hok.2
  | markRowDeleted x row =>
    obtain ⟨⟨_, g, hg, hcov, _⟩, h⟩ := ite_none_right_eq_some.mp h
    cases h
    have hle := hi.bound g hg
    have hlt := hcov.2
    exact hi.markRowDeleted x (by omega)
  | flushDeleteVector x i =>
    simp only [Visibility.step] at h
    split at h
    · cases h
    · obtain ⟨_, h⟩ := ite_none_right_eq_some.mp h
      cases h
      exact hi.flushDeleteVector x _ _
  | vacuumHorizon oldestXmin =>
    obtain ⟨⟨hm, hh⟩, h⟩ := ite_none_right_eq_some.mp h
    cases h
    exact hi.take hm (fun _ => nofun) (fun _ _ => nofun)
      (fun _ h => by cases h; exact (Clock.isHorizon_iff hi.wf).mp hh)
  | vacuumCompute =>
    simp only [Visibility.step] at h
    split at h
    · next hm =>
      cases h
      exact hi.vacuumCompute hm
    · cases h
  | vacuumSet =>
    simp only [Visibility.step] at h
    split at h
    · next hm =>
      cases h
      -- by `ok`, no mark on the block may still commit
      exact hi.vacuumSet hm (hok.1 rfl _ (by rw [hm]; rfl))
    · cases h
  | vacuumEnd =>
    simp only [Visibility.step] at h
    split at h
    · next hm =>
      cases h
      exact hi.release (by rw [hm]; intro x cl; exact Maint.noConfusion)
    · next hm =>
      cases h
      exact hi.release (by rw [hm]; intro x cl; exact Maint.noConfusion)
    · cases h
  | rewriteBegin x =>
    obtain ⟨⟨hm, _⟩, h⟩ := ite_none_right_eq_some.mp h
    cases h
    exact hi.take hm (fun _ => nofun) (fun _ _ h => by cases h; rfl) (fun _ => nofun)
  | rewriteCopy x i first =>
    simp only [Visibility.step] at h
    split at h
    · next y cl g hm hg =>
      obtain ⟨hx, h⟩ := ite_none_right_eq_some.mp h
      cases h
      split
      · exact hi.lock _
      · have hle := hok.2
        simp only [Action.rowsEnd, hg, Option.elim_some] at hle
        exact hi.flushRowGroup hx.2.2.2 hle
    · cases h
  | rewriteClear x i =>
    simp only [Visibility.step] at h
    split at h
    · next hm hg =>
      obtain ⟨⟨rfl, _⟩, h'⟩ := ite_none_right_eq_some.mp h
      cases h'
      exact hi.rewriteClear hm hg
    · cases h
  | rewriteRetire x i =>
    simp only [Visibility.step] at h
    split at h
    · next hm hg =>
      obtain ⟨⟨rfl, hic, _⟩, h⟩ := ite_none_right_eq_some.mp h
      cases h
      exact hi.rewriteRetire hm hg hic
    · cases h

theorem Inv.run {acts : List Action} (hok : Run.AllSteps (Visibility.step K) (ok K) Table.init acts)
    (h : Run.run (Visibility.step K) Table.init acts = some s) : Inv K s :=
  Run.run_invariant_of (fun _ _ _ hi ho hs => Inv.step hi ho hs) Inv.init hok h

/-! ## What the invariant gives -/

theorem Inv.safe (hi : Inv K s) : Safe K s := by
  have hblock : ∀ n, ∀ g ∈ s.groups, g.covers n → blockNumber (n / K) = n / K := by
    intro n g hg hn
    have hle := hi.bound g hg
    have hlt := hn.2
    exact blockNumber_div (by omega)
  have hgroup : ∀ n, s.bits (n / K) = true → ∀ g ∈ s.groups, g.covers n → s.GroupSettled g := by
    intro n hb g hg hn
    obtain ⟨i, g', hg', hc⟩ := hi.clean n hb
    obtain ⟨j, hj⟩ := getElem?_of_mem hg
    have hij := hi.disjoint hg' hj hc.covers hn
    rw [← hij, hg', Option.some.injEq] at hj
    subst hj
    refine ⟨hc.inserter, fun x hx hcom => ?_⟩
    rw [hc.retirer x hx] at hcom
    cases hcom
  have hmark : ∀ n, s.bits (n / K) = true → ∀ m ∈ s.marks, m.row = n →
      s.clock.status m.xid ≠ .committed := by
    intro n hb m hm hrow hcom
    rw [hi.unmarked n hb m hm hrow] at hcom
    cases hcom
  refine ⟨fun n hn hb => ?_, fun n hb g hg hn => ?_, fun n hb g hg hn => ?_,
    fun n hb hcov snap hsnap => ?_⟩
  · rw [blockNumber_div (le_of_lt hn)] at hb
    obtain ⟨i, g, hg, hc⟩ := hi.clean n hb
    exact ⟨g, mem_of_getElem? hg, hc.covers⟩
  · rw [hblock n g hg hn] at hb
    exact hgroup n hb g hg hn
  · rw [hblock n g hg hn] at hb
    exact hmark n hb
  · obtain ⟨g₀, hg₀, hn⟩ := hcov
    rw [hblock n g₀ hg₀ hn] at hb
    obtain ⟨i, g, hg, hc⟩ := hi.clean n hb
    have hset := hgroup n hb g (mem_of_getElem? hg) hc.covers
    exact ⟨g, mem_of_getElem? hg, hc.covers, hset.inserter.2 snap hsnap,
      fun x hx hsees => hset.retirer x hx hsees.1, fun m hm hrow hsees =>
        hmark n hb m hm hrow hsees.1⟩

/-- In a run in which no bit is set over a mark that may still commit, and every row written
has a block of its own, a set bit is safe in every state reached. -/
theorem safe_run (K : ℕ) (acts : List Action) (s : Table)
    (hok : Run.AllSteps (step K) (ok K) Table.init acts)
    (h : Run.run (step K) Table.init acts = some s) : Safe K s :=
  (Inv.run hok h).safe

/-- Rows 1 to 600 are inserted, a delete of row 300 is aborted, and a vacuum pass follows:
the bit of the rows 291 to 581 is set, and a snapshot taken later may rely on it. -/
def quietPass : List Action :=
  [.begin, .writeRow 0 1, .flushRowGroup 0 1 600, .commit 0,
    .begin, .markRowDeleted 1 300, .flushDeleteVector 1 0, .abort 1,
    .vacuumHorizon 2, .vacuumCompute, .vacuumSet, .vacuumEnd, .takeSnapshot]

theorem safe_run_quietPass :
    ∃ s, Run.run (step 291) Table.init quietPass = some s ∧ s.bits 1 = true ∧ Safe 291 s := by
  have hrun : (Run.run (step 291) Table.init quietPass).map (fun s => s.bits 1) = some true := by
    decide +kernel
  obtain ⟨s, hs, hb⟩ := map_eq_some_iff.mp hrun
  exact ⟨s, hs, hb, safe_run 291 quietPass s (by decide +kernel) hs⟩

/-- Row 300 is marked deleted before the vacuum pass, which does not see the mark and sets
the bit that the mark has cleared; the delete is flushed and commits afterwards. -/
def stalePass : List Action :=
  [.begin, .writeRow 0 1, .flushRowGroup 0 1 600, .commit 0, .begin, .markRowDeleted 1 300,
    .vacuumHorizon 1, .vacuumCompute, .vacuumSet, .vacuumEnd,
    .flushDeleteVector 1 0, .commit 1]

theorem stale_bit : ¬ ∀ acts s, Run.run (step 291) Table.init acts = some s → Safe 291 s := by
  intro hall
  have hrun : (Run.run (step 291) Table.init stalePass).map
      (fun s => (s.bits (blockNumber (300 / 291)), s.groups, s.marks, s.clock.status 1)) =
        some (true, [⟨1, 600, 0, none⟩], [⟨1, 300, true⟩], .committed) := by
    decide +kernel
  obtain ⟨s, hs, htuple⟩ := map_eq_some_iff.mp hrun
  simp only [Prod.mk.injEq] at htuple
  obtain ⟨hb, hg, hm, hst⟩ := htuple
  exact (hall stalePass s hs).notDeleted 300 hb ⟨1, 600, 0, none⟩ (by rw [hg]; exact mem_cons_self)
    (by decide) ⟨1, 300, true⟩ (by rw [hm]; exact mem_cons_self) rfl hst

end PgColumnar.Visibility
