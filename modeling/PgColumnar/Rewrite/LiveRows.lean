import PgColumnar.Rewrite.Reading
import PgColumnar.Lib.Catalog

/-!
# An online rewrite keeps the live rows

The argument is about outcomes.  At any moment, let any set of the running transactions
commit and the others abort: the rows that the catalog then shows must be the inserts of
the committed transactions less their deletes.  A commit or an abort only narrows the set
of outcomes, so all that is left to check are the steps that change the catalog, and each
of these is about the one transaction that takes it and the locks it holds.

While a rewrite has copied its batch and not yet retired it, the batch counts as retired
in the outcomes in which the rewrite commits.

## Main definitions

* `Outcome` — the transactions that may still commit together.
* `View`, `Inv` — in every outcome the catalog shows the expected rows.

## Main results

* `committedRows_perm` — no delete is lost, and no row is.
-/

namespace PgColumnar.Rewrite

open Mvcc List Catalog Table Rewrite.Group Clock
open Option (bind_eq_some_iff ite_none_right_eq_some map_eq_some_iff)

variable {α : Type} {key : ℕ → ℕ} {s s' : Table α} {V : ℕ → Prop}

/-! ## Outcomes -/

/-- The transactions that have committed or may still do so together. -/
structure Outcome (c : Clock) (V : ℕ → Prop) : Prop where
  committed : ∀ x, c.status x = .committed → V x
  aborted : ∀ x, c.status x = .aborted → ¬ V x

variable {c : Clock}

/-- Time only rules outcomes out. -/
theorem Outcome.of_next {c' : Clock} (h : Outcome c' V) (hwf : c.Wf) (hn : Clock.Next c c') :
    Outcome c V :=
  ⟨fun x hx => h.committed x (hn.committed hwf hx), fun x hx => h.aborted x (hn.aborted hwf hx)⟩

/-- The outcome in which nothing more commits. -/
theorem Outcome.now (c : Clock) : Outcome c fun x => c.status x = .committed :=
  ⟨fun _ hx => hx, fun x hx hx' => by rw [hx] at hx'; cases hx'⟩

def Phase.groups : Phase → List ℕ
  | .lock batch _ => batch
  | .copy batch _ => batch
  | .retire toRetire => toRetire

def Phase.toLock : Phase → List ℕ
  | .lock _ toLock => toLock
  | _ => []

def Phase.toRetire : Phase → List ℕ
  | .retire toRetire => toRetire
  | _ => []

/-- The group is copied and about to be retired, in the outcome. -/
def Table.hidden (s : Table α) (V : ℕ → Prop) (i : ℕ) : Prop :=
  ∃ job, s.job = some job ∧ V job.xid ∧ i ∈ job.phase.toRetire

/-- In the outcome the catalog shows row `r` under row number `n` of group `i`. -/
structure Here (V : ℕ → Prop) (groups : List (Group α)) (marks : List Mark) (hidden : ℕ → Prop)
    (i n : ℕ) (r : Row α) (g : Group α) : Prop where
  group : groups[i]? = some g
  row : g.row? n = some r
  inserter : V g.inserter
  kept : ∀ x, g.retirer = some x → ¬ V x
  shown : ¬ hidden i
  unmarked : ∀ m ∈ marks, m.flushed = true → m.row = n → ¬ V m.xid

/-- In the outcome the row has been inserted and not deleted. -/
structure Expected (V : ℕ → Prop) (marks : List Mark) (inserted : List (ℕ × Row α))
    (r : Row α) : Prop where
  inserted : ∃ x, (x, r) ∈ inserted ∧ V x
  unmarked : ∀ m ∈ marks, m.flushed = true → m.origin = r.origin → ¬ V m.xid

/-- The catalog shows the expected rows, each in one place. -/
structure View (V : ℕ → Prop) (groups : List (Group α)) (marks : List Mark)
    (inserted : List (ℕ × Row α)) (hidden : ℕ → Prop) : Prop where
  same : ∀ r, (∃ i n g, Here V groups marks hidden i n r g) ↔ Expected V marks inserted r
  once : ∀ {i i' n n' : ℕ} {r r' : Row α} {g g' : Group α}, Here V groups marks hidden i n r g →
    Here V groups marks hidden i' n' r' g' → r.origin = r'.origin → n = n'

/-! ## The invariant -/

structure JobInv (key : ℕ → ℕ) (s : Table α) (job : Job α) : Prop where
  live : s.clock.status job.xid ≠ .committed
  noMarks : ∀ m ∈ s.marks, m.xid ≠ job.xid
  nodup : (job.phase.groups ++ job.todo.flatten).Nodup
  /-- A listed group is committed, and whoever tried to retire it has aborted. -/
  settled : ∀ i ∈ job.phase.groups ++ job.todo.flatten, ∃ g, s.groups[i]? = some g ∧
    s.clock.status g.inserter = .committed ∧
    ∀ x, g.retirer = some x → s.clock.status x = .aborted
  locked : ∀ i ∈ job.phase.groups, i ∉ job.phase.toLock → (key i, job.xid) ∈ s.locks
  /-- The read snapshot sees what may count for the listed groups. -/
  seen : ∀ batch snap, job.phase = .copy batch snap → ∀ i ∈ batch, ∀ g, s.groups[i]? = some g →
    s.clock.sees snap g.inserter ∧ ∀ m ∈ s.marks, m.flushed = true → g.covers m.row →
      s.clock.status m.xid = .aborted ∨ s.clock.sees snap m.xid

structure Inv (key : ℕ → ℕ) (s : Table α) : Prop where
  wf : s.clock.Wf
  layout : Layout s.groups
  excl : ∀ a ∈ s.locks, ∀ b ∈ s.locks, a.1 = b.1 → a.2 = b.2
  origins : ∀ (i : ℕ) (g : Group α), s.groups[i]? = some g → ∀ r ∈ g.rows,
    r.origin < s.inserted.length
  /-- An insert is known by its place. -/
  inserted : ∀ (k : ℕ) (e : ℕ × Row α), s.inserted[k]? = some e → e.2.origin = k
  mark : ∀ m ∈ s.marks, ∃ (i : ℕ) (g : Group α) (r : Row α), s.groups[i]? = some g ∧
    g.row? m.row = some r ∧ r.origin = m.origin ∧
    (g.inserter = m.xid ∨ s.clock.status g.inserter = .committed)
  /-- A transaction with flushed marks on a group holds its lock until it ends. -/
  markLock : ∀ m ∈ s.marks, m.flushed = true → ∀ (i : ℕ) (g : Group α), s.groups[i]? = some g →
    g.covers m.row → s.clock.status m.xid = .committed ∨ s.clock.status m.xid = .aborted ∨
      (key i, m.xid) ∈ s.locks
  markFlushed : ∀ m ∈ s.marks, s.clock.status m.xid = .committed → m.flushed = true
  /-- So does one that retires it, and that is the rewrite under way. -/
  retirer : ∀ (i : ℕ) (g : Group α), s.groups[i]? = some g → ∀ x, g.retirer = some x →
    s.clock.status x = .committed ∨ s.clock.status x = .aborted ∨
      (∃ job, s.job = some job ∧ job.xid = x) ∧ (key i, x) ∈ s.locks
  job : ∀ job, s.job = some job → JobInv key s job
  view : ∀ V, Outcome s.clock V → View V s.groups s.marks s.inserted (s.hidden V)

theorem Inv.init : Inv key (Table.init : Table α) where
  wf := Clock.Wf.init
  layout := ⟨fun i g h => by simp [Table.init] at h, fun h => by simp [Table.init] at h⟩
  excl a ha := by simp [Table.init] at ha
  origins i g h := by simp [Table.init] at h
  inserted k e h := by simp [Table.init] at h
  mark m hm := by simp [Table.init] at hm
  markLock m hm := by simp [Table.init] at hm
  markFlushed m hm := by simp [Table.init] at hm
  retirer i g h := by simp [Table.init] at h
  job job h := by simp [Table.init] at h
  view V _ := by
    refine ⟨fun r => ⟨?_, ?_⟩, ?_⟩
    · rintro ⟨i, n, g, h⟩
      have := h.group
      simp [Table.init] at this
    · intro h
      obtain ⟨x, hx, _⟩ := h.inserted
      simp [Table.init] at hx
    · intro i i' n n' r r' g g' h
      have := h.group
      simp [Table.init] at this

variable {g : Group α} {r : Row α} {m : Mark}

/-- The row of a mark has the mark's origin wherever it is found. -/
theorem Inv.mark_origin (hi : Inv key s) {i : ℕ}
    (hm : m ∈ s.marks) (hg : s.groups[i]? = some g) (hr : g.row? m.row = some r) :
    r.origin = m.origin := by
  obtain ⟨j, g', r', hg', hr', horig, _⟩ := hi.mark m hm
  have hij := hi.layout.unique hg hg' (covers_of_row? hr) (covers_of_row? hr')
  subst hij
  cases hg.symm.trans hg'
  cases hr.symm.trans hr'
  exact horig

/-! ## Time passes -/

variable {locks : List (ℕ × ℕ)}

theorem JobInv.tick {job : Job α} (h : JobInv key s job) (hwf : s.clock.Wf) {j : Option (Job α)}
    (hn : Clock.Next s.clock c)
    (hlive : c.status job.xid ≠ .committed)
    (hl : ∀ i, (key i, job.xid) ∈ s.locks → (key i, job.xid) ∈ locks) :
    JobInv key { s with clock := c, locks := locks, job := j } job where
  live := hlive
  noMarks := h.noMarks
  nodup := h.nodup
  settled i hi := by
    obtain ⟨g, hg, hins, hret⟩ := h.settled i hi
    exact ⟨g, hg, hn.committed hwf hins, fun x hx => hn.aborted hwf (hret x hx)⟩
  locked i hi hni := hl i (h.locked i hi hni)
  seen batch snap hph i hib g hg := by
    obtain ⟨hins, hmarks⟩ := h.seen batch snap hph i hib g hg
    refine ⟨⟨hn.committed hwf hins.1, hins.2⟩, fun m hm hf hc => ?_⟩
    rcases hmarks m hm hf hc with ha | hsee
    · exact .inl (hn.aborted hwf ha)
    · exact .inr ⟨hn.committed hwf hsee.1, hsee.2⟩

theorem Inv.clock (hi : Inv key s) (hn : Clock.Next s.clock c)
    (hcom : ∀ x, c.status x = .committed → s.clock.status x = .committed) :
    Inv key { s with clock := c } :=
  { hi with
    wf := hi.wf.step hn
    mark m hm := by
      obtain ⟨i, g, r, hg, hr, ho, hins⟩ := hi.mark m hm
      exact ⟨i, g, r, hg, hr, ho, hins.imp id (hn.committed hi.wf)⟩
    markLock m hm hf i g hg hc :=
      (hi.markLock m hm hf i g hg hc).imp (hn.committed hi.wf) (.imp (hn.aborted hi.wf) id)
    markFlushed m hm h := hi.markFlushed m hm (hcom _ h)
    retirer i g hg x hx :=
      (hi.retirer i g hg x hx).imp (hn.committed hi.wf) (.imp (hn.aborted hi.wf) id)
    job job hj := (hi.job job hj).tick hi.wf hn (fun h => (hi.job job hj).live (hcom _ h))
      fun _ h => h
    view V hV := hi.view V (hV.of_next hi.wf hn) }

variable {x : ℕ}

theorem rewriting_iff : s.rewriting x = true ↔ ∃ job, s.job = some job ∧ job.xid = x := by
  unfold Table.rewriting
  cases s.job with
  | none | some job => simp

theorem xid_ne_of_not_rewriting {job : Job α} (h : s.rewriting x = false)
    (hj : s.job = some job) : job.xid ≠ x := by
  intro hx
  rw [rewriting_iff.mpr ⟨job, hj, hx⟩] at h
  cases h

theorem finish_job {st : Status} {job : Job α} :
    (s.finish x st).job = some job ↔ s.job = some job ∧ job.xid ≠ x := by
  simp only [Table.finish]
  split
  · next hr =>
    obtain ⟨job', hj', hx'⟩ := rewriting_iff.mp hr
    refine ⟨nofun, fun ⟨hj, hne⟩ => ?_⟩
    cases hj'.symm.trans hj
    exact absurd hx' hne
  · next hr =>
    exact ⟨fun hj => ⟨hj, fun hx => hr (rewriting_iff.mpr ⟨job, hj, hx⟩)⟩, fun h => h.1⟩

variable {k : ℕ}

theorem mem_finish_locks {y : ℕ} (st : Status) (h : (k, y) ∈ s.locks) (hy : y ≠ x) :
    (k, y) ∈ (s.finish x st).locks :=
  mem_filter.mpr ⟨h, by simpa using hy⟩

/-- A transaction ends, an unfinished rewrite only by aborting. -/
theorem Inv.finish (hi : Inv key s) {st : Status} (hx : s.clock.status x = .running)
    (hst : st = .committed ∨ st = .aborted)
    (hflush : st = .committed → ∀ m ∈ s.marks, m.xid = x → m.flushed = true)
    (hdone : st = .committed → ∀ job, s.job = some job → job.xid = x → job.phase.toRetire = []) :
    Inv key (s.finish x st) := by
  have hn : Clock.Next s.clock (s.clock.finish [x] st) := by
    refine .finish (fun y hy => ?_) hst
    rw [mem_singleton.mp hy]
    exact hx
  have hself : (s.clock.finish [x] st).status x = st :=
    finish_status_of_mem mem_cons_self
  have hother : ∀ y, y ≠ x → (s.clock.finish [x] st).status y = s.clock.status y :=
    fun y hy => finish_status_of_not_mem (by simpa using hy)
  have hended : (s.clock.finish [x] st).status x = .committed ∨
      (s.clock.finish [x] st).status x = .aborted := by
    rw [hself]
    exact hst
  refine ⟨hi.wf.step hn, hi.layout, ?_, hi.origins, hi.inserted, ?_, ?_, ?_, ?_, ?_, ?_⟩
  · intro a ha b hb
    exact hi.excl a (mem_filter.mp ha).1 b (mem_filter.mp hb).1
  · intro m hm
    obtain ⟨i, g, r, hg, hr, ho, hins⟩ := hi.mark m hm
    exact ⟨i, g, r, hg, hr, ho, hins.imp id (hn.committed hi.wf)⟩
  · intro m hm hf i g hg hc
    by_cases hmx : m.xid = x
    · rw [hmx]
      exact hended.imp id .inl
    · rcases hi.markLock m hm hf i g hg hc with h | h | h
      · exact .inl (hn.committed hi.wf h)
      · exact .inr (.inl (hn.aborted hi.wf h))
      · exact .inr (.inr (mem_finish_locks st h hmx))
  · intro m hm hcom
    by_cases hmx : m.xid = x
    · refine hflush ?_ m hm hmx
      rw [hmx] at hcom
      exact hself.symm.trans hcom
    · exact hi.markFlushed m hm ((hother _ hmx).symm.trans hcom)
  · intro i g hg y hy
    by_cases hyx : y = x
    · rw [hyx]
      exact hended.imp id .inl
    · rcases hi.retirer i g hg y hy with h | h | ⟨⟨job, hj, hjy⟩, hl⟩
      · exact .inl (hn.committed hi.wf h)
      · exact .inr (.inl (hn.aborted hi.wf h))
      · have hj' : (s.finish x st).job = some job :=
          finish_job.mpr ⟨hj, by rw [hjy]; exact hyx⟩
        exact .inr (.inr ⟨⟨job, hj', hjy⟩, mem_finish_locks st hl hyx⟩)
  · intro job hj
    obtain ⟨hj, hne⟩ := finish_job.mp hj
    refine (hi.job job hj).tick hi.wf hn ?_ fun i h => mem_finish_locks st h hne
    rw [hother _ hne]
    exact (hi.job job hj).live
  · intro V hV
    have hold := hi.view V (hV.of_next hi.wf hn)
    -- an ended rewrite hides nothing: it has retired its batches, or it does not count
    have hhid : (s.finish x st).hidden V = s.hidden V := by
      funext i
      apply propext
      constructor
      · rintro ⟨job, hj, hv, hmem⟩
        exact ⟨job, (finish_job.mp hj).1, hv, hmem⟩
      · rintro ⟨job, hj, hv, hmem⟩
        by_cases hjx : job.xid = x
        · rcases hst with rfl | rfl
          · rw [hdone rfl job hj hjx] at hmem
            cases hmem
          · rw [hjx] at hv
            exact absurd hv (hV.aborted x hself)
        · exact ⟨job, finish_job.mpr ⟨hj, hjx⟩, hv, hmem⟩
    rw [hhid]
    exact hold

/-! ## Inserts -/

variable {first : ℕ} {n : ℕ}

/-- The row number is in none of the groups. -/
theorem not_covers_of_freshRange {groups : List (Group α)} {count i : ℕ}
    (hf : freshRange groups first count = true) (hg : groups[i]? = some g) (hn : g.covers n)
    (hlo : first ≤ n) : ¬ n < first + count := by
  have h := all_eq_true.mp hf g (mem_of_getElem? hg)
  simp only [Bool.or_eq_true, decide_eq_true_eq] at h
  obtain ⟨h1, h2⟩ := hn
  omega

theorem Layout.concat {groups : List (Group α)} (h : Layout groups)
    (hne : g.rows ≠ []) (hf : freshRange groups g.firstRow g.rows.length = true) :
    Layout (groups ++ [g]) := by
  have hnew : ∀ (j : ℕ) (g' : Group α), groups[j]? = some g' →
      g.firstRow + g.rows.length ≤ g'.firstRow ∨ g'.firstRow + g'.rows.length ≤ g.firstRow := by
    intro j g' hg'
    simpa using all_eq_true.mp hf g' (mem_of_getElem? hg')
  constructor
  · intro i g' hg'
    rcases getElem?_concat_eq_some.mp hg' with hg' | ⟨_, rfl⟩
    · exact h.nonempty i g' hg'
    · exact hne
  · intro i j g₁ g₂ h₁ h₂ hij
    rcases getElem?_concat_eq_some.mp h₁ with hold₁ | ⟨hi, rfl⟩
    · rcases getElem?_concat_eq_some.mp h₂ with hold₂ | ⟨_, rfl⟩
      · exact h.apart hold₁ hold₂ hij
      · exact (hnew i g₁ hold₁).symm
    · rcases getElem?_concat_eq_some.mp h₂ with hold₂ | ⟨hj, _⟩
      · exact hnew j g₂ hold₂
      · exact absurd (hi.trans hj.symm) hij

theorem Here.concat {groups : List (Group α)} {marks : List Mark} {hidden : ℕ → Prop} {i : ℕ}
    (g' : Group α) (h : Here V groups marks hidden i n r g) :
    Here V (groups ++ [g']) marks hidden i n r g :=
  { h with group := getElem?_concat_eq_some.mpr (.inl h.group) }

/-- A job does not depend on the groups added after it listed its own. -/
theorem JobInv.concat {job : Job α} (h : JobInv key s job) (g : Group α)
    (inserted : List (ℕ × Row α)) :
    JobInv key { s with groups := s.groups ++ [g], inserted := inserted } job :=
  { h with
    settled i hi := by
      obtain ⟨g', hg', hrest⟩ := h.settled i hi
      exact ⟨g', getElem?_concat_eq_some.mpr (.inl hg'), hrest⟩
    seen batch snap hph i hib g' hg' := by
      rcases getElem?_concat_eq_some.mp hg' with hg' | ⟨hlen, _⟩
      · exact h.seen batch snap hph i hib g' hg'
      · obtain ⟨g₀, hg₀, _⟩ := h.settled i (mem_append_left _ (by rw [hph]; exact hib))
        have hlt := (List.getElem?_eq_some_iff.mp hg₀).1
        omega }

/-- A copied batch is listed, and all of it locked. -/
theorem Phase.mem_of_toRetire {p : Phase} {i : ℕ} (h : i ∈ p.toRetire) :
    i ∈ p.groups ∧ i ∉ p.toLock := by
  cases p with
  | retire toRetire => exact ⟨h, nofun⟩
  | _ => cases h

theorem Inv.not_hidden_length (hi : Inv key s) : ¬ s.hidden V s.groups.length := by
  rintro ⟨job, hj, _, hmem⟩
  obtain ⟨g, hg, _⟩ := (hi.job job hj).settled _ (mem_append_left _ (Phase.mem_of_toRetire hmem).1)
  exact absurd (List.getElem?_eq_some_iff.mp hg).1 (Nat.lt_irrefl _)

/-- No mark is on a row number that is handed out now. -/
theorem Inv.not_marked_fresh (hi : Inv key s) {count : ℕ}
    (hf : freshRange s.groups first count = true) (hlo : first ≤ n) (hhi : n < first + count)
    (hm : m ∈ s.marks) : m.row ≠ n := by
  rintro rfl
  obtain ⟨i, g, r, hg, hr, _⟩ := hi.mark m hm
  exact not_covers_of_freshRange hf hg (covers_of_row? hr) hlo hhi

theorem Inv.mark_origin_lt (hi : Inv key s) (hm : m ∈ s.marks) : m.origin < s.inserted.length := by
  obtain ⟨i, g, r, hg, hr, ho, _⟩ := hi.mark m hm
  rw [← ho]
  exact hi.origins i g hg r (mem_of_row? hr)

variable {values : List α}

theorem getElem?_newRows {j : ℕ} (h : (newRows k values)[j]? = some r) : r.origin = k + j := by
  rw [newRows, getElem?_map, map_eq_some_iff] at h
  obtain ⟨⟨v, l⟩, hget, rfl⟩ := h
  have : l = j := by
    rw [getElem?_zipIdx, map_eq_some_iff] at hget
    obtain ⟨_, _, heq⟩ := hget
    have := congrArg Prod.snd heq
    simpa using this.symm
  rw [this]

theorem length_newRows : (newRows k values).length = values.length := by
  simp [newRows]

theorem View.flushRowGroup (hi : Inv key s) (hV : Outcome s.clock V)
    (hf : freshRange s.groups first values.length = true) :
    View V (s.groups ++ [⟨first, newRows s.inserted.length values, x, none⟩]) s.marks
      (s.inserted ++ (newRows s.inserted.length values).map fun r => (x, r)) (s.hidden V) := by
  obtain ⟨hsame, honce⟩ := hi.view V hV
  -- a place in the new group, with its offset
  have hplace : ∀ {n : ℕ} {r : Row α},
      (⟨first, newRows s.inserted.length values, x, none⟩ : Group α).row? n = some r →
        first ≤ n ∧ n < first + values.length ∧ r.origin = s.inserted.length + (n - first) := by
    intro n r hr
    obtain ⟨hle, hget⟩ := row?_eq_some.mp hr
    have hlt := (List.getElem?_eq_some_iff.mp hget).1
    dsimp only at hle hlt hget
    rw [length_newRows] at hlt
    exact ⟨hle, by omega, getElem?_newRows hget⟩
  have hold : ∀ {i n : ℕ} {r : Row α} {g : Group α}, Here V s.groups s.marks (s.hidden V) i n r g →
      r.origin < s.inserted.length := fun h => hi.origins _ _ h.group _ (mem_of_row? h.row)
  refine ⟨fun r => ⟨?_, ?_⟩, ?_⟩
  · rintro ⟨i, n, g, h⟩
    rcases getElem?_concat_eq_some.mp h.group with hg | ⟨_, rfl⟩
    · obtain ⟨⟨y, hy, hVy⟩, hunm⟩ := (hsame r).mp ⟨i, n, g, { h with group := hg }⟩
      exact ⟨⟨y, mem_append_left _ hy, hVy⟩, hunm⟩
    · refine ⟨⟨x, mem_append_right _ ?_, h.inserter⟩, fun m hm _ horig => ?_⟩
      · exact mem_map.mpr ⟨r, mem_of_row? h.row, rfl⟩
      · have := hi.mark_origin_lt hm
        have := (hplace h.row).2.2
        omega
  · rintro ⟨⟨y, hy, hVy⟩, hunm⟩
    rcases mem_append.mp hy with hy | hy
    · obtain ⟨i, n, g, h⟩ := (hsame r).mpr ⟨⟨y, hy, hVy⟩, hunm⟩
      exact ⟨i, n, g, h.concat _⟩
    · obtain ⟨r', hr', heq⟩ := mem_map.mp hy
      cases heq
      obtain ⟨k, hk⟩ := getElem?_of_mem hr'
      have hrow : (⟨first, newRows s.inserted.length values, x, none⟩ : Group α).row? (first + k) =
          some r := row?_eq_some.mpr ⟨Nat.le_add_right _ _, by simpa using hk⟩
      refine ⟨s.groups.length, first + k, _, getElem?_concat_eq_some.mpr (.inr ⟨rfl, rfl⟩),
        hrow, hVy, nofun, hi.not_hidden_length, fun m hm _ hrow' => ?_⟩
      obtain ⟨hle, hlt, _⟩ := hplace hrow
      exact absurd hrow' (hi.not_marked_fresh hf hle hlt hm)
  · intro i i' n n' r r' g g' h h' horig
    rcases getElem?_concat_eq_some.mp h.group with hg | ⟨_, rfl⟩
    · have h₁ : Here V s.groups s.marks (s.hidden V) i n r g := { h with group := hg }
      rcases getElem?_concat_eq_some.mp h'.group with hg' | ⟨_, rfl⟩
      · exact honce h₁ { h' with group := hg' } horig
      · have := hold h₁
        have := (hplace h'.row).2.2
        omega
    · have hpl := hplace h.row
      rcases getElem?_concat_eq_some.mp h'.group with hg' | ⟨_, rfl⟩
      · have := hold (show Here V s.groups s.marks (s.hidden V) i' n' r' g' from
          { h' with group := hg' })
        omega
      · have hpl' := hplace h'.row
        omega

theorem Inv.flushRowGroup (hi : Inv key s) (hne : values ≠ [])
    (hf : freshRange s.groups first values.length = true) :
    Inv key { s with
      groups := s.groups ++ [⟨first, newRows s.inserted.length values, x, none⟩]
      inserted := s.inserted ++ (newRows s.inserted.length values).map fun r => (x, r) } where
  wf := hi.wf
  layout := by
    refine hi.layout.concat ?_ ?_
    · intro h
      rw [← length_eq_zero_iff, length_newRows, length_eq_zero_iff] at h
      exact hne h
    · dsimp only
      rw [length_newRows]
      exact hf
  excl := hi.excl
  origins i g hg r hr := by
    rw [length_append, length_map, length_newRows]
    rcases getElem?_concat_eq_some.mp hg with hg | ⟨_, rfl⟩
    · exact Nat.lt_of_lt_of_le (hi.origins i g hg r hr) (Nat.le_add_right _ _)
    · obtain ⟨k, hk⟩ := getElem?_of_mem hr
      have hlt := (List.getElem?_eq_some_iff.mp hk).1
      rw [length_newRows] at hlt
      rw [getElem?_newRows hk]
      exact Nat.add_lt_add_left hlt _
  inserted k e he := by
    rw [getElem?_append] at he
    split at he
    · exact hi.inserted k e he
    · next hlen =>
      rw [getElem?_map, map_eq_some_iff] at he
      obtain ⟨r, hr, rfl⟩ := he
      rw [getElem?_newRows hr]
      omega
  mark m hm := by
    obtain ⟨i, g, r, hg, hrest⟩ := hi.mark m hm
    exact ⟨i, g, r, getElem?_concat_eq_some.mpr (.inl hg), hrest⟩
  markLock m hm hfl i g hg hc := by
    rcases getElem?_concat_eq_some.mp hg with hg | ⟨_, rfl⟩
    · exact hi.markLock m hm hfl i g hg hc
    · obtain ⟨hle, hlt⟩ := hc
      rw [length_newRows] at hlt
      exact absurd rfl (hi.not_marked_fresh hf hle hlt hm)
  markFlushed := hi.markFlushed
  retirer i g hg y hy := by
    rcases getElem?_concat_eq_some.mp hg with hg | ⟨_, rfl⟩
    · exact hi.retirer i g hg y hy
    · cases hy
  job job hj := (hi.job job hj).concat _ _
  view V hV := View.flushRowGroup hi hV hf

/-! ## Deletes -/

/-- Marks in the private buffer count for nothing yet. -/
theorem Inv.markRowDeleted (hi : Inv key s) {row i : ℕ}
    (hg : s.groups[i]? = some g) (hr : g.row? row = some r)
    (hins : g.inserter = x ∨ s.clock.status g.inserter = .committed)
    (hx : s.clock.status x = .running) (hjob : s.rewriting x = false) :
    Inv key { s with marks := s.marks ++ [⟨x, row, r.origin, false⟩] } := by
  have hflushed : ∀ {m : Mark}, m ∈ s.marks ++ [⟨x, row, r.origin, false⟩] → m.flushed = true →
      m ∈ s.marks := by
    intro m hm hf
    rcases mem_append.mp hm with hm | hm
    · exact hm
    · rw [mem_singleton.mp hm] at hf
      cases hf
  refine ⟨hi.wf, hi.layout, hi.excl, hi.origins, hi.inserted, ?_, ?_, ?_, hi.retirer, ?_, ?_⟩
  · refine forall_mem_append.mpr ⟨hi.mark, forall_mem_singleton.mpr ?_⟩
    exact ⟨i, g, r, hg, hr, rfl, hins⟩
  · intro m hm hf
    exact hi.markLock m (hflushed hm hf) hf
  · refine forall_mem_append.mpr ⟨hi.markFlushed, forall_mem_singleton.mpr ?_⟩
    intro hcom
    exact absurd (hx.symm.trans hcom) nofun
  · intro job hj
    have h := hi.job job hj
    refine ⟨h.live, ?_, h.nodup, h.settled, h.locked, ?_⟩
    · refine forall_mem_append.mpr ⟨h.noMarks, forall_mem_singleton.mpr ?_⟩
      exact (xid_ne_of_not_rewriting hjob hj).symm
    · intro batch snap hph j hjb g' hg'
      obtain ⟨hsee, hmarks⟩ := h.seen batch snap hph j hjb g' hg'
      exact ⟨hsee, fun m hm hf => hmarks m (hflushed hm hf) hf⟩
  · intro V hV
    obtain ⟨hsame, honce⟩ := hi.view V hV
    have hhere : ∀ {j n : ℕ} {r' : Row α} {g' : Group α},
        Here V s.groups (s.marks ++ [⟨x, row, r.origin, false⟩]) (s.hidden V) j n r' g' ↔
          Here V s.groups s.marks (s.hidden V) j n r' g' := by
      intro j n r' g'
      constructor
      · intro h
        exact { h with unmarked := fun m hm => h.unmarked m (mem_append_left _ hm) }
      · intro h
        exact { h with unmarked := fun m hm hf => h.unmarked m (hflushed hm hf) hf }
    refine ⟨fun r' => ?_, fun h h' => honce (hhere.mp h) (hhere.mp h')⟩
    constructor
    · rintro ⟨j, n, g', h⟩
      obtain ⟨hin, hunm⟩ := (hsame r').mp ⟨j, n, g', hhere.mp h⟩
      exact ⟨hin, fun m hm hf => hunm m (hflushed hm hf) hf⟩
    · rintro ⟨hin, hunm⟩
      obtain ⟨j, n, g', h⟩ := (hsame r').mpr ⟨hin, fun m hm => hunm m (mem_append_left _ hm)⟩
      exact ⟨j, n, g', hhere.mpr h⟩

/-- A mark after the flush: one that was flushed before, or one of `x` on the group. -/
theorem mem_flushMarks :
    m ∈ s.flushMarks x g ↔ ∃ m₀ ∈ s.marks, m.xid = m₀.xid ∧ m.row = m₀.row ∧ m.origin = m₀.origin ∧
      m.flushed = (m₀.flushed || decide (m₀.xid = x ∧ g.covers m₀.row)) := by
  rw [Table.flushMarks, mem_map]
  constructor
  · rintro ⟨m₀, hm₀, rfl⟩
    refine ⟨m₀, hm₀, ?_⟩
    split
    · next h => simp [h]
    · next h => simp [h]
  · rintro ⟨m₀, hm₀, hx, hr, ho, hf⟩
    refine ⟨m₀, hm₀, ?_⟩
    obtain ⟨mx, mr, mo, mf⟩ := m
    subst hx hr ho hf
    split
    · next h => simp [h]
    · next h => simp [h]

theorem View.flushDeleteVector (hi : Inv key s) (hV : Outcome s.clock V) {i : ℕ}
    (hg : s.groups[i]? = some g) (hjob : s.rewriting x = false)
    (hlock : s.lockFree x (key i) = true)
    (hret : ∀ y ∈ g.retirer, s.clock.status y ≠ .committed) :
    View V s.groups (s.flushMarks x g) s.inserted (s.hidden V) := by
  obtain ⟨hsame, honce⟩ := hi.view V hV
  -- whoever retires the group holds its lock, so nobody does
  have hheld : ∀ y, (key i, y) ∈ s.locks → y = x := by
    intro y hy
    simpa using all_eq_true.mp hlock _ hy
  have hkept : ∀ y, g.retirer = some y → ¬ V y := by
    intro y hy hVy
    rcases hi.retirer i g hg y hy with hc | ha | ⟨⟨job, hj, hjy⟩, hl⟩
    · exact hret y hy hc
    · exact hV.aborted y ha hVy
    · exact xid_ne_of_not_rewriting hjob hj (hjy.trans (hheld y hl))
  have hshown : ¬ s.hidden V i := by
    rintro ⟨job, hj, _, hmem⟩
    obtain ⟨hgrp, hlock⟩ := Phase.mem_of_toRetire hmem
    have hl := (hi.job job hj).locked i hgrp hlock
    exact xid_ne_of_not_rewriting hjob hj (hheld _ hl)
  -- a flushed mark of the group counts in the outcome, so its row was shown or marked before
  have hnew : ∀ m₀ ∈ s.marks, m₀.xid = x → g.covers m₀.row → V x →
      (∃ r, r.origin = m₀.origin ∧ Here V s.groups s.marks (s.hidden V) i m₀.row r g) ∨
        ∃ m ∈ s.marks, m.flushed = true ∧ m.row = m₀.row ∧ m.origin = m₀.origin ∧ V m.xid := by
    intro m₀ hm₀ hmx hcov hVx
    obtain ⟨r, hr⟩ := row?_of_covers hcov
    have horig := hi.mark_origin hm₀ hg hr
    have hins : V g.inserter := by
      obtain ⟨j, g', r', hg', hr', _, hins⟩ := hi.mark m₀ hm₀
      have hij := hi.layout.unique hg hg' hcov (covers_of_row? hr')
      subst hij
      cases hg.symm.trans hg'
      rcases hins with h | h
      · rw [h, hmx]
        exact hVx
      · exact hV.committed _ h
    by_cases hmk : ∃ m ∈ s.marks, m.flushed = true ∧ m.row = m₀.row ∧ V m.xid
    · obtain ⟨m, hm, hf, hrow, hVm⟩ := hmk
      refine .inr ⟨m, hm, hf, hrow, ?_, hVm⟩
      rw [← hi.mark_origin hm hg (by rw [hrow]; exact hr), horig]
    · refine .inl ⟨r, horig, hg, hr, hins, hkept, hshown, fun m hm hf hrow hVm => ?_⟩
      exact hmk ⟨m, hm, hf, hrow, hVm⟩
  have hback : ∀ {j n : ℕ} {r : Row α} {g' : Group α},
      Here V s.groups (s.flushMarks x g) (s.hidden V) j n r g' →
        Here V s.groups s.marks (s.hidden V) j n r g' := by
    intro j n r g' h
    refine { h with unmarked := fun m hm hf hrow => ?_ }
    have hm' : m ∈ s.flushMarks x g := mem_flushMarks.mpr ⟨m, hm, rfl, rfl, rfl, by simp [hf]⟩
    exact h.unmarked m hm' hf hrow
  refine ⟨fun r => ⟨?_, ?_⟩, fun h h' => honce (hback h) (hback h')⟩
  · rintro ⟨j, n, g', h⟩
    obtain ⟨hin, hunm⟩ := (hsame r).mp ⟨j, n, g', hback h⟩
    refine ⟨hin, fun m hm hf horig hVm => ?_⟩
    obtain ⟨m₀, hm₀, hx, hrow, ho, hfl⟩ := mem_flushMarks.mp hm
    rw [hfl, Bool.or_eq_true, decide_eq_true_eq] at hf
    rcases hf with hf | ⟨hmx, hcov⟩
    · exact hunm m₀ hm₀ hf (ho.symm.trans horig) (hx ▸ hVm)
    · have hVx : V x := by
        rw [← hmx, ← hx]
        exact hVm
      rcases hnew m₀ hm₀ hmx hcov hVx with ⟨r', hr', h'⟩ | ⟨m', hm', hf', _, ho', hVm'⟩
      · have hn : n = m₀.row := honce (hback h) h' (by rw [hr', ← ho, horig])
        exact h.unmarked m hm (by rw [hfl]; simp [hmx, hcov]) (hrow.trans hn.symm) hVm
      · exact hunm m' hm' hf' (by rw [ho', ← ho, horig]) hVm'
  · rintro ⟨hin, hunm⟩
    have hunm₀ : ∀ m ∈ s.marks, m.flushed = true → m.origin = r.origin → ¬ V m.xid := by
      intro m hm hf
      exact hunm m (mem_flushMarks.mpr ⟨m, hm, rfl, rfl, rfl, by simp [hf]⟩) hf
    obtain ⟨j, n, g', h⟩ := (hsame r).mpr ⟨hin, hunm₀⟩
    refine ⟨j, n, g', { h with unmarked := fun m hm hf hrow hVm => ?_ }⟩
    obtain ⟨m₀, hm₀, hx, hrow₀, ho, _⟩ := mem_flushMarks.mp hm
    refine hunm m hm hf ?_ hVm
    rw [ho, ← hi.mark_origin hm₀ h.group (by rw [← hrow₀, hrow]; exact h.row)]

theorem excl_cons (hi : Inv key s) (h : s.lockFree x k = true) :
    ∀ a ∈ (k, x) :: s.locks, ∀ b ∈ (k, x) :: s.locks, a.1 = b.1 → a.2 = b.2 := by
  have hheld : ∀ l ∈ s.locks, l.1 = k → l.2 = x := by
    intro l hl hk
    simpa [hk] using all_eq_true.mp h l hl
  intro a ha b hb hab
  rcases mem_cons.mp ha with rfl | ha
  · rcases mem_cons.mp hb with rfl | hb
    · rfl
    · exact (hheld b hb hab.symm).symm
  · rcases mem_cons.mp hb with rfl | hb
    · exact hheld a ha hab
    · exact hi.excl a ha b hb hab

theorem Inv.flushDeleteVector (hi : Inv key s) {i : ℕ}
    (hg : s.groups[i]? = some g) (hjob : s.rewriting x = false)
    (hlock : s.lockFree x (key i) = true)
    (hret : ∀ y ∈ g.retirer, s.clock.status y ≠ .committed) :
    Inv key { s with marks := s.flushMarks x g, locks := (key i, x) :: s.locks } := by
  refine ⟨hi.wf, hi.layout, excl_cons hi hlock, hi.origins, hi.inserted, ?_, ?_, ?_, ?_, ?_, ?_⟩
  · intro m hm
    obtain ⟨m₀, hm₀, hmx, hrow, ho, _⟩ := mem_flushMarks.mp hm
    rw [hmx, hrow, ho]
    exact hi.mark m₀ hm₀
  · intro m hm hf j g' hg' hcov
    obtain ⟨m₀, hm₀, hmx, hrow, ho, hfl⟩ := mem_flushMarks.mp hm
    rw [hrow] at hcov
    rw [hfl, Bool.or_eq_true, decide_eq_true_eq] at hf
    rw [hmx]
    rcases hf with hf | ⟨hm₀x, hcov₀⟩
    · exact (hi.markLock m₀ hm₀ hf j g' hg' hcov).imp id (.imp id (mem_cons_of_mem _))
    · -- the lock that the flush has just taken
      rw [← hi.layout.unique hg hg' hcov₀ hcov, hm₀x]
      exact .inr (.inr mem_cons_self)
  · intro m hm hcom
    obtain ⟨m₀, hm₀, hmx, _, _, hfl⟩ := mem_flushMarks.mp hm
    rw [hmx] at hcom
    rw [hfl, hi.markFlushed m₀ hm₀ hcom]
    rfl
  · intro j g' hg' y hy
    exact (hi.retirer j g' hg' y hy).imp id (.imp id (.imp id (mem_cons_of_mem _)))
  · intro job hj
    have h := hi.job job hj
    refine ⟨h.live, ?_, h.nodup, h.settled, ?_, ?_⟩
    · intro m hm
      obtain ⟨m₀, hm₀, hmx, _⟩ := mem_flushMarks.mp hm
      rw [hmx]
      exact h.noMarks m₀ hm₀
    · intro j hjg hjt
      exact mem_cons_of_mem _ (h.locked j hjg hjt)
    · intro batch snap hph j hjb g' hg'
      obtain ⟨hsee, hmarks⟩ := h.seen batch snap hph j hjb g' hg'
      refine ⟨hsee, fun m hm hf hcov => ?_⟩
      obtain ⟨m₀, hm₀, hmx, hrow, _, hfl⟩ := mem_flushMarks.mp hm
      rw [hmx]
      rw [hrow] at hcov
      rw [hfl, Bool.or_eq_true, decide_eq_true_eq] at hf
      rcases hf with hf | ⟨hm₀x, hcov₀⟩
      · exact hmarks m₀ hm₀ hf hcov
      · -- the rewrite holds the lock of this group
        have hij := hi.layout.unique hg hg' hcov₀ hcov
        subst hij
        have hl := h.locked i (by rw [hph]; exact hjb) (by rw [hph]; exact nofun)
        have hxid : job.xid = x := by simpa using all_eq_true.mp hlock _ hl
        exact absurd hxid (xid_ne_of_not_rewriting hjob hj)
  · intro V hV
    exact View.flushDeleteVector hi hV hg hjob hlock hret

/-! ## The rewrite -/

theorem flatten_batches (kind : Kind α) (cands : List ℕ) :
    (batches kind cands).flatten = cands := by
  cases kind with
  | compact num den maxGroups =>
    induction cands with
    | nil => rfl
    | cons i cands ih =>
      have : batches (.compact num den maxGroups : Kind α) (i :: cands) =
        [i] :: batches (.compact num den maxGroups : Kind α) cands := rfl
      rw [this, flatten_cons, ih]
      rfl
  | recluster curveKey =>
    cases cands with
    | nil => rfl
    | cons i cands => simp [batches]

theorem nodup_candidates (kind : Kind α) : (s.candidates kind).Nodup := by
  have hidx : ∀ p : Group α × ℕ → Bool, ((s.groups.zipIdx.filter p).map (·.2)).Nodup := by
    intro p
    refine List.Nodup.sublist (List.Sublist.map _ filter_sublist) ?_
    rw [zipIdx_map_snd]
    exact nodup_range'
  cases kind with
  | compact num den maxGroups =>
    simp only [Table.candidates]
    split
    · exact (hidx _).sublist (take_sublist _ _)
    · exact hidx _
  | recluster curveKey => exact hidx _

variable {kind : Kind α}

theorem groupVisible_iff {snap : Snapshot} : s.groupVisible snap g = true ↔
    s.clock.sees snap g.inserter ∧ ∀ x, g.retirer = some x → ¬ s.clock.sees snap x := by
  rw [Table.groupVisible, Bool.and_eq_true, decide_eq_true_eq]
  cases g.retirer <;> simp

theorem visible_of_mem_candidates {i : ℕ} (h : i ∈ s.candidates kind) :
    ∃ g, s.groups[i]? = some g ∧ s.groupVisible s.clock.latest g = true := by
  have hmem : ∃ p : Group α × ℕ → Bool, i ∈ (s.groups.zipIdx.filter fun gi =>
      s.groupVisible s.clock.latest gi.1 && p gi).map (·.2) := by
    cases kind with
    | compact num den maxGroups =>
      simp only [Table.candidates, Bool.and_assoc] at h
      split at h
      · exact ⟨_, mem_of_mem_take h⟩
      · exact ⟨_, h⟩
    | recluster curveKey => exact ⟨fun _ => true, by simpa [Table.candidates] using h⟩
  obtain ⟨p, hmem⟩ := hmem
  obtain ⟨⟨g, j⟩, hgj, rfl⟩ := mem_map.mp hmem
  obtain ⟨hz, hvis⟩ := mem_filter.mp hgj
  rw [Bool.and_eq_true] at hvis
  exact ⟨g, mem_zipIdx_iff_getElem?.mp hz, hvis.1⟩

/-- What the rewrite goes on with has neither locks nor a copy yet. -/
theorem Job.next_spec (job : Job α) : job.next.xid = job.xid ∧ job.next.phase.toRetire = [] ∧
      job.next.phase.groups ++ job.next.todo.flatten = job.todo.flatten ∧
      (∀ i ∈ job.next.phase.groups, i ∈ job.next.phase.toLock) ∧
      ∀ batch snap, job.next.phase ≠ .copy batch snap := by
  unfold Job.next
  cases job.todo with
  | nil => exact ⟨rfl, rfl, rfl, nofun, nofun⟩
  | cons batch rest => exact ⟨rfl, rfl, rfl, fun i hi => hi, nofun⟩

/-- The rewrite goes on with groups that are settled. -/
theorem JobInv.of_next {job : Job α} (hlive : s.clock.status job.xid ≠ .committed)
    (hm : ∀ m ∈ s.marks, m.xid ≠ job.xid)
    (hnd : job.todo.flatten.Nodup)
    (hs : ∀ i ∈ job.todo.flatten, ∃ g, s.groups[i]? = some g ∧
      s.clock.status g.inserter = .committed ∧
      ∀ x, g.retirer = some x → s.clock.status x = .aborted) :
    JobInv key s job.next := by
  obtain ⟨hxid, _, hgroups, hlock, hcopy⟩ := job.next_spec
  refine ⟨by rw [hxid]; exact hlive, ?_, ?_, ?_, ?_, ?_⟩
  · rw [hxid]
    exact hm
  · rw [hgroups]
    exact hnd
  · rw [hgroups]
    exact hs
  · intro i hi hni
    exact absurd (hlock i hi) hni
  · intro batch snap hph
    exact absurd hph (hcopy batch snap)

/-- Without a copied batch nothing is hidden. -/
theorem hidden_eq {j : Job α} (h : ∀ job, s.job = some job → job.phase.toRetire = [])
    (hj : j.phase.toRetire = []) :
    Table.hidden { s with locks := locks, job := some j } V = s.hidden V := by
  funext i
  apply propext
  constructor
  · rintro ⟨job, hjob, _, hmem⟩
    cases hjob
    rw [hj] at hmem
    cases hmem
  · rintro ⟨job, hjob, _, hmem⟩
    rw [h job hjob] at hmem
    cases hmem

theorem Inv.rewriteList (hi : Inv key s) (hjob : s.job = none) (hx : s.clock.status x = .running)
    (hm : ∀ m ∈ s.marks, m.xid ≠ x) :
    Inv key { s with
      job := some (Job.next ⟨x, kind, .retire [], batches kind (s.candidates kind)⟩) } := by
  let job : Job α := ⟨x, kind, .retire [], batches kind (s.candidates kind)⟩
  have hnone : ∀ job', s.job = some job' → job'.phase.toRetire = [] := by
    intro job' h
    rw [hjob] at h
    cases h
  refine ⟨hi.wf, hi.layout, hi.excl, hi.origins, hi.inserted, hi.mark, hi.markLock,
    hi.markFlushed, ?_, ?_, ?_⟩
  · intro i g hg y hy
    rcases hi.retirer i g hg y hy with h | h | ⟨⟨job', hj', _⟩, _⟩
    · exact .inl h
    · exact .inr (.inl h)
    · rw [hjob] at hj'
      cases hj'
  · intro job' hj'
    cases hj'
    refine JobInv.of_next (show s.clock.status x ≠ .committed by rw [hx]; exact nofun) hm ?_ ?_
    · rw [flatten_batches]
      exact nodup_candidates kind
    · rw [flatten_batches]
      intro i hic
      obtain ⟨g, hg, hvis⟩ := visible_of_mem_candidates hic
      rw [groupVisible_iff] at hvis
      refine ⟨g, hg, hvis.1.1, fun y hy => ?_⟩
      -- no rewrite is under way, so the retirement has ended, and not by a commit
      rcases hi.retirer i g hg y hy with h | h | ⟨⟨job', hj', _⟩, _⟩
      · exact absurd ((sees_latest hi.wf).mpr h) (hvis.2 y hy)
      · exact h
      · rw [hjob] at hj'
        cases hj'
  · intro V hV
    rw [show Table.hidden { s with job := some job.next } V = s.hidden V from
      hidden_eq hnone (job.next_spec).2.1]
    exact hi.view V hV

/-- The rewrite takes a lock or moves on, before its copy. -/
theorem Inv.setJob (hi : Inv key s) {job : Job α} (job' : Job α) (locks : List (ℕ × ℕ))
    (hj : s.job = some job) (hx : job'.xid = job.xid) (hsub : ∀ l ∈ s.locks, l ∈ locks)
    (hexcl : ∀ a ∈ locks, ∀ b ∈ locks, a.1 = b.1 → a.2 = b.2)
    (hr : job.phase.toRetire = []) (hr' : job'.phase.toRetire = [])
    (hinv : JobInv key { s with locks := locks, job := some job' } job') :
    Inv key { s with locks := locks, job := some job' } := by
  refine ⟨hi.wf, hi.layout, hexcl, hi.origins, hi.inserted, hi.mark, ?_, hi.markFlushed, ?_, ?_, ?_⟩
  · intro m hm hf i g hg hc
    exact (hi.markLock m hm hf i g hg hc).imp id (.imp id (hsub _))
  · intro i g hg y hy
    rcases hi.retirer i g hg y hy with h | h | ⟨⟨job₀, hj₀, hy₀⟩, hl⟩
    · exact .inl h
    · exact .inr (.inl h)
    · cases hj.symm.trans hj₀
      exact .inr (.inr ⟨⟨job', rfl, hx.trans hy₀⟩, hsub _ hl⟩)
  · intro job'' hj''
    cases hj''
    exact hinv
  · intro V hV
    rw [hidden_eq (fun job₀ hj₀ => by rw [hj, Option.some.injEq] at hj₀; rw [← hj₀]; exact hr) hr']
    exact hi.view V hV

theorem Inv.rewriteLock (hi : Inv key s) {job : Job α} {batch rest : List ℕ} {i : ℕ}
    (hj : s.job = some job) (hph : job.phase = .lock batch (i :: rest))
    (hlock : s.lockFree job.xid (key i) = true) :
    Inv key { s with
      locks := (key i, job.xid) :: s.locks
      job := some { job with phase := .lock batch rest } } := by
  have h := hi.job job hj
  have hgroups : job.phase.groups = batch := by rw [hph]; rfl
  refine hi.setJob { job with phase := .lock batch rest } _ hj rfl
    (fun l hl => mem_cons_of_mem _ hl) (excl_cons hi hlock) (by rw [hph]; rfl) rfl ?_
  refine ⟨h.live, h.noMarks, ?_, ?_, ?_, nofun⟩
  · rw [← hgroups] at *
    exact h.nodup
  · intro j hjm
    exact h.settled j (by rw [hgroups]; exact hjm)
  · intro j hjb hjr
    by_cases hji : j = i
    · rw [hji]
      exact mem_cons_self
    · refine mem_cons_of_mem _ (h.locked j (by rw [hgroups]; exact hjb) ?_)
      rw [hph]
      intro hmem
      rcases mem_cons.mp hmem with h | h
      · exact hji h
      · exact hjr h

theorem Inv.rewriteSnapshot (hi : Inv key s) {job : Job α} {batch : List ℕ}
    (hj : s.job = some job) (hph : job.phase = .lock batch []) :
    Inv key { s with job := some { job with phase := .copy batch s.clock.latest } } := by
  have h := hi.job job hj
  have hgroups : job.phase.groups = batch := by rw [hph]; rfl
  have hlocked : ∀ i ∈ batch, (key i, job.xid) ∈ s.locks := by
    intro i hib
    exact h.locked i (by rw [hgroups]; exact hib) (by rw [hph]; exact nofun)
  refine hi.setJob { job with phase := .copy batch s.clock.latest } s.locks hj rfl
    (fun l hl => hl) hi.excl (by rw [hph]; rfl) rfl ?_
  refine ⟨h.live, h.noMarks, ?_, ?_, fun i hib _ => hlocked i hib, ?_⟩
  · have hnd := h.nodup
    rw [hgroups] at hnd
    exact hnd
  · intro j hjm
    exact h.settled j (by rw [hgroups]; exact hjm)
  · rintro batch' snap heq i hib g hg
    cases heq
    obtain ⟨g', hg', hcom, _⟩ := h.settled i (mem_append_left _ (by rw [hgroups]; exact hib))
    rw [show s.groups[i]? = some g from hg, Option.some.injEq] at hg'
    subst hg'
    refine ⟨(sees_latest hi.wf).mpr hcom, fun m hm hf hc => ?_⟩
    rcases hi.markLock m hm hf i g hg hc with hc | ha | hl
    · exact .inr ((sees_latest hi.wf).mpr hc)
    · exact .inl ha
    · -- a running deleter would hold the lock that the rewrite holds
      exact absurd (hi.excl _ hl _ (hlocked i hib) rfl) (h.noMarks m hm)

/-! ## The copy -/

/-- The flush adds groups of the transaction that hold the rows. -/
theorem flushGroups_spec {groups groups' : List (Group α)} {rows : List (Row α)}
    {splits : List (ℕ × ℕ)} (h : flushGroups x groups rows splits = some groups')
    (hl : Layout groups) : ∃ news, groups' = groups ++ news ∧ Layout groups' ∧
      (∀ g ∈ news, g.inserter = x ∧ g.retirer = none) ∧ news.flatMap (·.rows) = rows := by
  induction splits generalizing groups rows with
  | nil =>
    rw [flushGroups] at h
    obtain ⟨hrows, h⟩ := ite_none_right_eq_some.mp h
    cases h
    exact ⟨[], (append_nil _).symm, hl, nofun, (isEmpty_iff.mp hrows).symm⟩
  | cons split splits ih =>
    obtain ⟨first, count⟩ := split
    rw [flushGroups] at h
    obtain ⟨⟨hpos, hle, hf⟩, h⟩ := ite_none_right_eq_some.mp h
    have hlen : (rows.take count).length = count := length_take_of_le hle
    have hl' : Layout (groups ++ [(⟨first, rows.take count, x, none⟩ : Group α)]) := by
      refine hl.concat ?_ ?_
      · intro hnil
        dsimp only at hnil
        rw [hnil] at hlen
        simp at hlen
        omega
      · dsimp only
        rw [hlen]
        exact hf
    obtain ⟨news, hg, hlay, hnew, hrows⟩ := ih h hl'
    refine ⟨⟨first, rows.take count, x, none⟩ :: news, ?_, hlay, ?_, ?_⟩
    · rw [hg, append_assoc]
      rfl
    · refine forall_mem_cons.mpr ⟨?_, hnew⟩
      exact ⟨rfl, rfl⟩
    · rw [flatMap_cons, hrows]
      exact take_append_drop count rows

variable {f : Found α}

/-- What the copy reads is what the batch shows, in every outcome. -/
theorem Inv.mem_liveRows (hi : Inv key s) {job : Job α} {batch : List ℕ} {snap : Snapshot}
    (hj : s.job = some job) (hph : job.phase = .copy batch snap) (hV : Outcome s.clock V) :
    f ∈ s.readRows snap ∧ f.group ∈ batch ↔
      f.group ∈ batch ∧ ∃ g, Here V s.groups s.marks (s.hidden V) f.group f.number f.row g := by
  have h := hi.job job hj
  rw [and_comm, and_congr_right_iff]
  intro hib
  obtain ⟨g, hg, hcom, hab⟩ := h.settled f.group (mem_append_left _ (by rw [hph]; exact hib))
  obtain ⟨hins, hmarks⟩ := h.seen batch snap hph f.group hib g hg
  rw [mem_readRows]
  constructor
  · rintro ⟨g', hg', hvis, hrow, hdel⟩
    cases hg.symm.trans hg'
    refine ⟨g, hg, hrow, hV.committed _ hcom, fun x hx => hV.aborted x (hab x hx), ?_, ?_⟩
    · rintro ⟨job', hj', _, hmem⟩
      cases hj.symm.trans hj'
      rw [hph] at hmem
      cases hmem
    · intro m hm hf hrow' hVm
      rcases hmarks m hm hf (by rw [hrow']; exact covers_of_row? hrow) with ha | hsee
      · exact hV.aborted _ ha hVm
      · have := any_eq_false.mp hdel m hm
        simp [hf, hrow', hsee] at this
  · rintro ⟨g', hhere⟩
    have hgg : g' = g := by
      have := hhere.group
      rw [hg, Option.some.injEq] at this
      exact this.symm
    subst hgg
    refine ⟨g', hg, ?_, hhere.row, ?_⟩
    · refine groupVisible_iff.mpr ⟨hins, fun x hr hsee => ?_⟩
      exact absurd ((hab x hr).symm.trans hsee.1) nofun
    · refine any_eq_false.mpr fun m hm hall => ?_
      simp only [Bool.and_eq_true, decide_eq_true_eq] at hall
      exact hhere.unmarked m hm hall.1.1 hall.1.2 (hV.committed _ hall.2.1)

theorem Kind.perm_of_writes [DecidableEq α] {live written : List (Row α)}
    (h : kind.writes live written = true) : written.Perm live := by
  cases kind with
  | compact num den maxGroups =>
    rw [of_decide_eq_true h]
  | recluster curveKey =>
    simp only [Kind.writes, Bool.and_eq_true, decide_eq_true_eq] at h
    exact h.1

variable {g' : Group α}

/-- One insert is shown at one place. -/
theorem Here.found_eq (hi : Inv key s) (hV : Outcome s.clock V) {f' : Found α}
    (h : Here V s.groups s.marks (s.hidden V) f.group f.number f.row g)
    (h' : Here V s.groups s.marks (s.hidden V) f'.group f'.number f'.row g')
    (horig : f.row.origin = f'.row.origin) : f = f' := by
  have hn : f.number = f'.number := (hi.view V hV).once h h' horig
  have hg : f.group = f'.group := hi.layout.unique h.group h'.group
    (covers_of_row? h.row) (by rw [hn]; exact covers_of_row? h'.row)
  have hgrp := h.group
  rw [hg, h'.group, Option.some.injEq] at hgrp
  have hrow := h.row
  rw [hn, ← hgrp, h'.row, Option.some.injEq] at hrow
  obtain ⟨fg, fn, fr⟩ := f
  obtain ⟨fg', fn', fr'⟩ := f'
  dsimp only at hn hg hrow
  rw [hn, hg, hrow]

/-- The copied rows come from different inserts. -/
theorem Inv.nodup_liveRows (hi : Inv key s) {job : Job α} {batch : List ℕ} {snap : Snapshot}
    (hj : s.job = some job) (hph : job.phase = .copy batch snap) (hV : Outcome s.clock V) :
    ((((s.readRows snap).filter fun f => decide (f.group ∈ batch)).map (·.row)).map
      (·.origin)).Nodup := by
  rw [map_map]
  refine List.Nodup.map_on ?_ (nodup_readRows.filter _)
  intro f hf f' hf' horig
  obtain ⟨hread, hib⟩ := mem_filter.mp hf
  obtain ⟨hread', hib'⟩ := mem_filter.mp hf'
  obtain ⟨_, g, h⟩ := (hi.mem_liveRows hj hph hV).mp ⟨hread, of_decide_eq_true hib⟩
  obtain ⟨_, g', h'⟩ := (hi.mem_liveRows hj hph hV).mp ⟨hread', of_decide_eq_true hib'⟩
  exact Here.found_eq hi hV h h' horig

section Copy

variable {job : Job α} {batch : List ℕ} {snap : Snapshot} {news : List (Group α)}

/-- The hypotheses on the groups that a copy has written. -/
structure Copied (s : Table α) (job : Job α) (batch : List ℕ) (snap : Snapshot)
    (news : List (Group α)) : Prop where
  isJob : s.job = some job
  inCopy : job.phase = .copy batch snap
  layout : Layout (s.groups ++ news)
  written : ∀ g ∈ news, g.inserter = job.xid ∧ g.retirer = none
  rows : (news.flatMap (·.rows)).Perm
    (((s.readRows snap).filter fun f => decide (f.group ∈ batch)).map (·.row))

variable {g : Group α}

/-- A group after the copy is an old one or a written one. -/
theorem getElem?_copied {i : ℕ} (h : (s.groups ++ news)[i]? = some g) :
    s.groups[i]? = some g ∨ s.groups.length ≤ i ∧ g ∈ news := by
  rw [getElem?_append] at h
  split at h
  · exact .inl h
  · next hlen => exact .inr ⟨Nat.le_of_not_lt hlen, mem_of_getElem? h⟩

theorem getElem?_copied_old {i : ℕ} (h : s.groups[i]? = some g) :
    (s.groups ++ news)[i]? = some g := by
  rw [List.getElem?_append_left (List.getElem?_eq_some_iff.mp h).1]
  exact h

theorem Copied.mem_rows (hc : Copied s job batch snap news) (hi : Inv key s)
    (hV : Outcome s.clock V) {r : Row α} : (∃ g ∈ news, r ∈ g.rows) ↔
      ∃ i ∈ batch, ∃ n g, Here V s.groups s.marks (s.hidden V) i n r g := by
  rw [← mem_flatMap, hc.rows.mem_iff, mem_map]
  constructor
  · rintro ⟨f, hf, rfl⟩
    obtain ⟨hread, hib⟩ := mem_filter.mp hf
    obtain ⟨hib, g, h⟩ := (hi.mem_liveRows hc.isJob hc.inCopy hV).mp ⟨hread, of_decide_eq_true hib⟩
    exact ⟨f.group, hib, f.number, g, h⟩
  · rintro ⟨i, hib, n, g, h⟩
    obtain ⟨hread, _⟩ := (hi.mem_liveRows hc.isJob hc.inCopy hV (f := ⟨i, n, r⟩)).mpr ⟨hib, g, h⟩
    exact ⟨⟨i, n, r⟩, mem_filter.mpr ⟨hread, decide_eq_true hib⟩, rfl⟩

/-- No mark is on a row of a written group. -/
theorem Copied.not_marked (hc : Copied s job batch snap news) (hi : Inv key s) {i : ℕ}
    (hg : (s.groups ++ news)[i]? = some g) (hlen : s.groups.length ≤ i) {m : Mark}
    (hm : m ∈ s.marks) : ¬ g.covers m.row := by
  intro hcov
  obtain ⟨j, g', r, hg', hr, _⟩ := hi.mark m hm
  have hij := hc.layout.unique hg (getElem?_copied_old hg') hcov (covers_of_row? hr)
  have hlt := (List.getElem?_eq_some_iff.mp hg').1
  omega

/-- Rows of the same insert are at one place in the written groups. -/
theorem Copied.once (hc : Copied s job batch snap news) (hi : Inv key s)
    (hV : Outcome s.clock V) {i i' n n' : ℕ} {r r' : Row α} {g' : Group α}
    (hg : (s.groups ++ news)[i]? = some g) (hlen : s.groups.length ≤ i)
    (hr : g.row? n = some r) (hg' : (s.groups ++ news)[i']? = some g')
    (hlen' : s.groups.length ≤ i') (hr' : g'.row? n' = some r') (horig : r.origin = r'.origin) :
    n = n' := by
  have hnd : (news.flatMap fun g => g.rows.map (·.origin)).Nodup := by
    have hperm := hc.rows.map (·.origin)
    rw [map_flatMap] at hperm
    exact hperm.nodup_iff.mpr (hi.nodup_liveRows hc.isJob hc.inCopy hV)
  rw [nodup_flatMap] at hnd
  rw [getElem?_append_right hlen] at hg
  rw [getElem?_append_right hlen'] at hg'
  have hmem : r.origin ∈ g.rows.map (·.origin) := mem_map_of_mem (mem_of_row? hr)
  have hmem' : r.origin ∈ g'.rows.map (·.origin) := by
    rw [horig]
    exact mem_map_of_mem (mem_of_row? hr')
  obtain ⟨hk, rfl⟩ := List.getElem?_eq_some_iff.mp hg
  obtain ⟨hk', rfl⟩ := List.getElem?_eq_some_iff.mp hg'
  have hdis := pairwise_iff_getElem.mp hnd.2
  rcases Nat.lt_trichotomy (i - s.groups.length) (i' - s.groups.length) with h | h | h
  · exact absurd hmem' (hdis _ _ hk hk' h hmem)
  · -- one group, and its rows come from different inserts
    have heq : news[i' - s.groups.length] = news[i - s.groups.length] := by simp only [h]
    rw [heq] at hr'
    obtain ⟨hle, hget⟩ := row?_eq_some.mp hr
    obtain ⟨hle', hget'⟩ := row?_eq_some.mp hr'
    have hinj := nodup_iff_injective_get.mp (hnd.1 _ (getElem_mem hk))
    obtain ⟨hb, hgetr⟩ := List.getElem?_eq_some_iff.mp hget
    obtain ⟨hb', hgetr'⟩ := List.getElem?_eq_some_iff.mp hget'
    have hoff : n - news[i - s.groups.length].firstRow =
        n' - news[i - s.groups.length].firstRow := by
      refine Fin.mk.inj (hinj (?_ : List.get _ ⟨_, by rw [length_map]; exact hb⟩ =
        List.get _ ⟨_, by rw [length_map]; exact hb'⟩))
      simp [hgetr, hgetr', horig]
    omega
  · exact absurd hmem (hdis _ _ hk' hk h hmem')

theorem Copied.view (hc : Copied s job batch snap news) (hi : Inv key s) (hV : Outcome s.clock V) :
    View V (s.groups ++ news) s.marks s.inserted (fun i => V job.xid ∧ i ∈ batch) := by
  obtain ⟨hsame, honce⟩ := hi.view V hV
  -- in the new catalog a row is at an old place outside the batch, or at a written one
  have hold : ∀ {i n : ℕ} {r : Row α} {g : Group α},
      Here V (s.groups ++ news) s.marks (fun i => V job.xid ∧ i ∈ batch) i n r g →
        s.groups[i]? = some g → Here V s.groups s.marks (s.hidden V) i n r g := by
    intro i n r g h hg
    refine { h with group := hg, shown := ?_ }
    rintro ⟨job', hj', _, hmem⟩
    cases hc.isJob.symm.trans hj'
    rw [hc.inCopy] at hmem
    cases hmem
  refine ⟨fun r => ⟨?_, ?_⟩, ?_⟩
  · rintro ⟨i, n, g, h⟩
    rcases getElem?_copied h.group with hg | ⟨_, hgn⟩
    · exact (hsame r).mp ⟨i, n, g, hold h hg⟩
    · obtain ⟨j, _, n', g', h'⟩ := (hc.mem_rows hi hV).mp ⟨g, hgn, mem_of_row? h.row⟩
      exact (hsame r).mp ⟨j, n', g', h'⟩
  · intro hexp
    obtain ⟨i, n, g, h⟩ := (hsame r).mpr hexp
    by_cases hmoved : V job.xid ∧ i ∈ batch
    · obtain ⟨g', hg', hr⟩ := (hc.mem_rows hi hV).mpr ⟨i, hmoved.2, n, g, h⟩
      obtain ⟨k, hk⟩ := getElem?_of_mem hg'
      obtain ⟨j, hj⟩ := getElem?_of_mem hr
      have hplace : (s.groups ++ news)[s.groups.length + k]? = some g' := by
        rw [getElem?_append_right (Nat.le_add_right _ _), Nat.add_sub_cancel_left]
        exact hk
      have hrow : g'.row? (g'.firstRow + j) = some r :=
        row?_eq_some.mpr ⟨Nat.le_add_right _ _, by rw [Nat.add_sub_cancel_left]; exact hj⟩
      obtain ⟨hins, hret⟩ := hc.written g' hg'
      refine ⟨_, _, g', hplace, hrow, by rw [hins]; exact hmoved.1, ?_, ?_, ?_⟩
      · rw [hret]
        exact nofun
      · rintro ⟨_, hmem⟩
        obtain ⟨g₀, hg₀, _⟩ := (hi.job job hc.isJob).settled (s.groups.length + k)
          (mem_append_left _ (by rw [hc.inCopy]; exact hmem))
        have := (List.getElem?_eq_some_iff.mp hg₀).1
        omega
      · intro m hm _ hrow' _
        refine hc.not_marked hi hplace (Nat.le_add_right _ _) hm ?_
        rw [hrow']
        exact covers_of_row? hrow
    · exact ⟨i, n, g, { h with group := getElem?_copied_old h.group, shown := hmoved }⟩
  · intro i i' n n' r r' g g' h h' horig
    -- a row outside the batch is not also copied
    have hmixed : ∀ {i i' n n' : ℕ} {r r' : Row α} {g g' : Group α},
        Here V (s.groups ++ news) s.marks (fun i => V job.xid ∧ i ∈ batch) i n r g →
          Here V (s.groups ++ news) s.marks (fun i => V job.xid ∧ i ∈ batch) i' n' r' g' →
            s.groups[i]? = some g → g' ∈ news → r.origin ≠ r'.origin := by
      intro i i' n n' r r' g g' h h' hg hgn horig
      have hVx : V job.xid := by
        rw [← (hc.written g' hgn).1]
        exact h'.inserter
      obtain ⟨j, hjb, n₀, g₀, h₀⟩ := (hc.mem_rows hi hV).mp ⟨g', hgn, mem_of_row? h'.row⟩
      have hn : n = n₀ := honce (hold h hg) h₀ horig
      have hij : i = j := hi.layout.unique hg h₀.group (covers_of_row? h.row)
        (by rw [hn]; exact covers_of_row? h₀.row)
      exact h.shown ⟨hVx, by rw [hij]; exact hjb⟩
    rcases getElem?_copied h.group with hg | ⟨hlen, hgn⟩
    · rcases getElem?_copied h'.group with hg' | ⟨_, hgn'⟩
      · exact honce (hold h hg) (hold h' hg') horig
      · exact absurd horig (hmixed h h' hg hgn')
    · rcases getElem?_copied h'.group with hg' | ⟨hlen', _⟩
      · exact absurd horig.symm (hmixed h' h hg' hgn)
      · exact hc.once hi hV h.group hlen h.row h'.group hlen' h'.row horig

theorem Copied.inv (hc : Copied s job batch snap news) (hi : Inv key s) : Inv key { s with
      groups := s.groups ++ news
      job := some { job with phase := .retire batch } } := by
  have h := hi.job job hc.isJob
  have hgroups : job.phase.groups = batch := by rw [hc.inCopy]; rfl
  refine ⟨hi.wf, hc.layout, hi.excl, ?_, hi.inserted, ?_, ?_, hi.markFlushed, ?_, ?_, ?_⟩
  · intro i g hg r hr
    rcases getElem?_copied hg with hg | ⟨_, hgn⟩
    · exact hi.origins i g hg r hr
    · -- a copied row was somewhere before
      obtain ⟨j, _, n, g', h'⟩ := (hc.mem_rows hi (.now _)).mp ⟨g, hgn, hr⟩
      exact hi.origins j g' h'.group r (mem_of_row? h'.row)
  · intro m hm
    obtain ⟨i, g, r, hg, hrest⟩ := hi.mark m hm
    exact ⟨i, g, r, getElem?_copied_old hg, hrest⟩
  · intro m hm hf i g hg hcov
    rcases getElem?_copied hg with hg' | ⟨hlen, _⟩
    · exact hi.markLock m hm hf i g hg' hcov
    · exact absurd hcov (hc.not_marked hi hg hlen hm)
  · intro i g hg y hy
    rcases getElem?_copied hg with hg | ⟨_, hgn⟩
    · rcases hi.retirer i g hg y hy with hcom | hab | ⟨⟨job', hj', hy'⟩, hl⟩
      · exact .inl hcom
      · exact .inr (.inl hab)
      · cases hc.isJob.symm.trans hj'
        exact .inr (.inr ⟨⟨_, rfl, hy'⟩, hl⟩)
    · rw [(hc.written g hgn).2] at hy
      cases hy
  · intro job' hj'
    cases hj'
    refine ⟨h.live, h.noMarks, ?_, ?_, ?_, nofun⟩
    · have hnd := h.nodup
      rw [hgroups] at hnd
      exact hnd
    · intro i him
      obtain ⟨g, hg, hrest⟩ := h.settled i (by rw [hgroups]; exact him)
      exact ⟨g, getElem?_copied_old hg, hrest⟩
    · intro i hib _
      exact h.locked i (by rw [hgroups]; exact hib) (by rw [hc.inCopy]; exact nofun)
  · intro V hV
    have hhid : Table.hidden { s with
        groups := s.groups ++ news
        job := some { job with phase := .retire batch } } V = fun i => V job.xid ∧ i ∈ batch := by
      funext i
      apply propext
      constructor
      · rintro ⟨job', hj', hVx, hmem⟩
        cases hj'
        exact ⟨hVx, hmem⟩
      · rintro ⟨hVx, hmem⟩
        exact ⟨_, rfl, hVx, hmem⟩
    rw [hhid]
    exact hc.view hi hV

theorem Inv.rewriteCopy [DecidableEq α] (hi : Inv key s) {written : List (Row α)}
    {splits : List (ℕ × ℕ)} {groups : List (Group α)} (hj : s.job = some job)
    (hph : job.phase = .copy batch snap)
    (hw : job.kind.writes (s.liveRows snap job.kind batch) written = true)
    (hf : flushGroups job.xid s.groups written splits = some groups) :
    Inv key { s with groups := groups, job := some { job with phase := .retire batch } } := by
  obtain ⟨news, rfl, hlay, hnew, hrows⟩ := flushGroups_spec hf hi.layout
  have hnd : batch.Nodup := by
    have := (hi.job job hj).nodup
    rw [hph] at this
    exact (nodup_append.mp this).1
  have hperm := Kind.perm_of_writes hw
  rw [liveRows_eq hi.layout hnd, ← hrows] at hperm
  exact (Copied.mk hj hph hlay hnew hperm).inv hi

end Copy

/-! ## The retirement -/

/-- A retired group keeps its rows. -/
theorem getElem?_retired {i j : ℕ} {groups : List (Group α)} :
    (groups.modify i fun g => { g with retirer := some x })[j]? = some g ↔
      ∃ g₀, groups[j]? = some g₀ ∧
        g = { g₀ with retirer := if i = j then some x else g₀.retirer } := by
  have heq : ∀ g₀ : Group α, (if i = j then { g₀ with retirer := some x } else g₀) =
      { g₀ with retirer := if i = j then some x else g₀.retirer } := by
    intro g₀
    split
    · rfl
    · rfl
  rw [getElem?_modify_eq_some]
  simp only [heq, eq_comm]

section Retire

variable {job job' : Job α} {i : ℕ} {rest : List ℕ}

/-- The group that the rewrite retires was hidden in the outcomes that count it. -/
theorem View.rewriteRetire (hi : Inv key s) (hj : s.job = some job)
    (hph : job.phase = .retire (i :: rest)) (hx : job'.xid = job.xid)
    (hr : job'.phase.toRetire = rest) (hV : Outcome s.clock V) :
    View V (s.groups.modify i fun g => { g with retirer := some job.xid }) s.marks s.inserted
      (fun j => ∃ job₀, some job' = some job₀ ∧ V job₀.xid ∧ j ∈ job₀.phase.toRetire) := by
  obtain ⟨hsame, honce⟩ := hi.view V hV
  have h := hi.job job hj
  have hnd : i ∉ rest := by
    have hnd := h.nodup
    rw [hph] at hnd
    exact (nodup_cons.mp (nodup_append.mp hnd).1).1
  have hhid : ∀ j, s.hidden V j ↔ V job.xid ∧ j ∈ i :: rest := by
    intro j
    constructor
    · rintro ⟨job₀, hj₀, hVx, hmem⟩
      cases hj.symm.trans hj₀
      rw [hph] at hmem
      exact ⟨hVx, hmem⟩
    · rintro ⟨hVx, hmem⟩
      exact ⟨job, hj, hVx, by rw [hph]; exact hmem⟩
  -- what was hidden, being listed, is now retired, for the same outcomes
  have hto : ∀ {j n : ℕ} {r : Row α} {g : Group α}, Here V s.groups s.marks (s.hidden V) j n r g →
        Here V (s.groups.modify i fun g => { g with retirer := some job.xid }) s.marks
          (fun j => ∃ job₀, some job' = some job₀ ∧ V job₀.xid ∧ j ∈ job₀.phase.toRetire) j n r
          { g with retirer := if i = j then some job.xid else g.retirer } := by
    intro j n r g hh
    refine ⟨getElem?_retired.mpr ⟨_, hh.group, rfl⟩, hh.row, hh.inserter, ?_, ?_, hh.unmarked⟩
    · intro y hy hVy
      split at hy
      · next hij =>
        cases hy
        exact hh.shown ((hhid j).mpr ⟨hVy, by rw [← hij]; exact mem_cons_self⟩)
      · exact hh.kept y hy hVy
    · rintro ⟨job₀, hj₀, hVx, hmem⟩
      cases hj₀
      rw [hr] at hmem
      rw [hx] at hVx
      exact hh.shown ((hhid j).mpr ⟨hVx, mem_cons_of_mem _ hmem⟩)
  have hfrom : ∀ {j n : ℕ} {r : Row α} {g : Group α},
      Here V (s.groups.modify i fun g => { g with retirer := some job.xid }) s.marks
        (fun j => ∃ job₀, some job' = some job₀ ∧ V job₀.xid ∧ j ∈ job₀.phase.toRetire) j n r g →
        ∃ g₀, Here V s.groups s.marks (s.hidden V) j n r g₀ := by
    intro j n r g hh
    obtain ⟨g₀, hg₀, rfl⟩ := getElem?_retired.mp hh.group
    have hkept := hh.kept
    dsimp only at hkept
    refine ⟨g₀, hg₀, hh.row, hh.inserter, ?_, ?_, hh.unmarked⟩
    · intro y hy hVy
      by_cases hij : i = j
      · -- whoever tried to retire the listed group before has aborted
        obtain ⟨g₁, hg₁, _, hab⟩ := h.settled i
          (mem_append_left _ (by rw [hph]; exact mem_cons_self))
        rw [hij, hg₀, Option.some.injEq] at hg₁
        subst hg₁
        exact hV.aborted y (hab y hy) hVy
      · rw [if_neg hij] at hkept
        exact hkept y hy hVy
    · rw [hhid]
      rintro ⟨hVx, hmem⟩
      rcases mem_cons.mp hmem with rfl | hmem
      · rw [if_pos rfl] at hkept
        exact hkept _ rfl hVx
      · exact hh.shown ⟨job', rfl, by rw [hx]; exact hVx, by rw [hr]; exact hmem⟩
  refine ⟨fun r => ⟨?_, ?_⟩, ?_⟩
  · rintro ⟨j, n, g, hh⟩
    obtain ⟨g₀, h₀⟩ := hfrom hh
    exact (hsame r).mp ⟨j, n, g₀, h₀⟩
  · intro hexp
    obtain ⟨j, n, g, hh⟩ := (hsame r).mpr hexp
    exact ⟨j, n, _, hto hh⟩
  · intro j j' n n' r r' g g' hh hh' horig
    obtain ⟨g₀, h₀⟩ := hfrom hh
    obtain ⟨g₁, h₁⟩ := hfrom hh'
    exact honce h₀ h₁ horig

theorem Inv.rewriteRetire (hi : Inv key s) (job' : Job α) (hj : s.job = some job)
    (hph : job.phase = .retire (i :: rest)) (hx : job'.xid = job.xid)
    (hr : job'.phase.toRetire = rest)
    (hinv : JobInv key { s with
      groups := s.groups.modify i fun g => { g with retirer := some job.xid }
      job := some job' } job') :
    Inv key { s with
      groups := s.groups.modify i fun g => { g with retirer := some job.xid }
      job := some job' } := by
  have h := hi.job job hj
  refine ⟨hi.wf, ⟨?_, ?_⟩, hi.excl, ?_, hi.inserted, ?_, ?_, hi.markFlushed, ?_, ?_, ?_⟩
  · intro j g hg
    obtain ⟨g₀, hg₀, rfl⟩ := getElem?_retired.mp hg
    exact hi.layout.nonempty j g₀ hg₀
  · intro j k g g' hg hg' hjk
    obtain ⟨g₀, hg₀, rfl⟩ := getElem?_retired.mp hg
    obtain ⟨g₁, hg₁, rfl⟩ := getElem?_retired.mp hg'
    have hapart := hi.layout.apart hg₀ hg₁ hjk
    exact hapart
  · intro j g hg
    obtain ⟨g₀, hg₀, rfl⟩ := getElem?_retired.mp hg
    exact hi.origins j g₀ hg₀
  · intro m hm
    obtain ⟨j, g, r, hg, hrow, hrest⟩ := hi.mark m hm
    exact ⟨j, _, r, getElem?_retired.mpr ⟨_, hg, rfl⟩, hrow, hrest⟩
  · intro m hm hf j g hg hcov
    obtain ⟨g₀, hg₀, rfl⟩ := getElem?_retired.mp hg
    exact hi.markLock m hm hf j g₀ hg₀ hcov
  · intro j g hg y hy
    obtain ⟨g₀, hg₀, rfl⟩ := getElem?_retired.mp hg
    dsimp only at hy
    split at hy
    · next hij =>
      cases hy
      rw [← hij]
      refine .inr (.inr ⟨⟨job', rfl, hx⟩, h.locked i ?_ ?_⟩)
      · rw [hph]
        exact mem_cons_self
      · rw [hph]
        exact nofun
    · rcases hi.retirer j g₀ hg₀ y hy with hc | ha | ⟨⟨job₀, hj₀, hy₀⟩, hl⟩
      · exact .inl hc
      · exact .inr (.inl ha)
      · cases hj.symm.trans hj₀
        exact .inr (.inr ⟨⟨job', rfl, hx.trans hy₀⟩, hl⟩)
  · intro job'' hj''
    cases hj''
    exact hinv
  · intro V hV
    exact View.rewriteRetire hi hj hph hx hr hV

/-- The groups that are still listed are not the one just retired. -/
theorem JobInv.settled_retired (h : JobInv key s job) (hph : job.phase = .retire (i :: rest)) :
    (rest ++ job.todo.flatten).Nodup ∧ ∀ j ∈ rest ++ job.todo.flatten,
      ∃ g, (s.groups.modify i fun g => { g with retirer := some job.xid })[j]? = some g ∧
        s.clock.status g.inserter = .committed ∧
        ∀ x, g.retirer = some x → s.clock.status x = .aborted := by
  have hnd := h.nodup
  have hset := h.settled
  rw [hph] at hnd hset
  have hcons : (i :: (rest ++ job.todo.flatten)).Nodup := hnd
  refine ⟨(nodup_cons.mp hcons).2, fun j hjm => ?_⟩
  have hij : i ≠ j := by
    rintro rfl
    exact (nodup_cons.mp hcons).1 hjm
  obtain ⟨g, hg, hcom, hab⟩ := hset j (mem_cons_of_mem _ hjm)
  refine ⟨_, getElem?_retired.mpr ⟨_, hg, rfl⟩, hcom, fun x hx => hab x ?_⟩
  rw [if_neg hij] at hx
  exact hx

theorem Inv.rewriteRetire_step (hi : Inv key s) (hj : s.job = some job)
    (hph : job.phase = .retire (i :: rest)) :
    Inv key { s with
      groups := s.groups.modify i fun g => { g with retirer := some job.xid }
      job := some (job.retired rest) } := by
  have h := hi.job job hj
  obtain ⟨hnd, hset⟩ := h.settled_retired hph
  cases rest with
  | nil =>
    exact hi.rewriteRetire job.next hj hph job.next_spec.1 job.next_spec.2.1
      (JobInv.of_next h.live h.noMarks hnd hset)
  | cons k rest =>
    refine hi.rewriteRetire { job with phase := .retire (k :: rest) } hj hph rfl rfl ?_
    refine ⟨h.live, h.noMarks, hnd, hset, fun j hjm _ => ?_, nofun⟩
    refine h.locked j ?_ ?_
    · rw [hph]
      exact mem_cons_of_mem _ hjm
    · rw [hph]
      exact nofun

end Retire

/-! ## Runs -/

theorem Inv.stepRewrite [DecidableEq α] {a : Action α} {job : Job α} (hi : Inv key s)
    (hj : s.job = some job)
    (h : stepRewrite key s job a = some s') : Inv key s' := by
  cases a with
  | rewriteLock =>
    simp only [Rewrite.stepRewrite] at h
    split at h
    · next hph =>
      obtain ⟨hlock, h⟩ := ite_none_right_eq_some.mp h
      cases h
      exact hi.rewriteLock hj hph hlock
    · cases h
  | rewriteSnapshot =>
    simp only [Rewrite.stepRewrite] at h
    split at h
    · next hph =>
      cases h
      exact hi.rewriteSnapshot hj hph
    · cases h
  | rewriteCopy written splits =>
    simp only [Rewrite.stepRewrite] at h
    split at h
    · next hph =>
      obtain ⟨hw, h⟩ := ite_none_right_eq_some.mp h
      obtain ⟨groups, hf, rfl⟩ := map_eq_some_iff.mp h
      exact hi.rewriteCopy hj hph hw hf
    · cases h
  | rewriteRetire =>
    simp only [Rewrite.stepRewrite] at h
    split at h
    · next hph =>
      cases h
      exact hi.rewriteRetire_step hj hph
    · cases h
  | _ => cases h

theorem Job.toRetire_of_done {job : Job α} (h : job.done = true) : job.phase.toRetire = [] := by
  simp only [Job.done, Bool.and_eq_true, decide_eq_true_eq] at h
  rw [h.2]
  rfl

theorem Inv.step [DecidableEq α] {a : Action α} (hi : Inv key s) (h : step key s a = some s') :
    Inv key s' := by
  cases a with
  | begin =>
    cases h
    refine hi.clock .begin fun x hx => ?_
    rcases (Clock.Next.begin (c := s.clock)).of_committed hx with hc | hr
    · exact hc
    · exact absurd hx (by
        rw [begin_status_of_ne (Nat.ne_of_lt (hi.wf.lt_next (by rw [hr]; nofun))), hr]
        nofun)
  | commit x =>
    obtain ⟨⟨hx, hflush, hdone⟩, h⟩ := ite_none_right_eq_some.mp h
    cases h
    exact hi.finish hx (.inl rfl) (fun _ => hflush)
      fun _ job hj hjx => Job.toRetire_of_done (hdone job hj hjx)
  | abort x =>
    obtain ⟨hx, h⟩ := ite_none_right_eq_some.mp h
    cases h
    exact hi.finish hx (.inr rfl) nofun nofun
  | takeSnapshot =>
    cases h
    exact hi.clock .takeSnapshot fun _ hx => hx
  | dropSnapshot i =>
    cases h
    exact hi.clock (.dropSnapshot i) fun _ hx => hx
  | flushRowGroup x first values =>
    obtain ⟨⟨_, _, hne, hf⟩, h⟩ := ite_none_right_eq_some.mp h
    cases h
    exact hi.flushRowGroup hne hf
  | markRowDeleted x rowNumber =>
    simp only [Rewrite.step] at h
    split at h
    · cases h
    · next g hfind =>
      split at h
      · cases h
      · next r hr =>
        obtain ⟨⟨hx, hjob, hins⟩, h⟩ := ite_none_right_eq_some.mp h
        cases h
        obtain ⟨i, hg⟩ := getElem?_of_mem (mem_of_find?_eq_some hfind)
        exact hi.markRowDeleted hg hr hins hx hjob
  | flushDeleteVector x i =>
    simp only [Rewrite.step] at h
    split at h
    · cases h
    · next g hg =>
      obtain ⟨⟨_, hjob, hlock, hret⟩, h⟩ := ite_none_right_eq_some.mp h
      cases h
      exact hi.flushDeleteVector hg hjob hlock hret
  | rewriteList x kind =>
    obtain ⟨⟨hx, hjob, hm, _⟩, h⟩ := ite_none_right_eq_some.mp h
    cases h
    exact hi.rewriteList (Option.isNone_iff_eq_none.mp hjob) hx hm
  | rewriteLock | rewriteSnapshot | rewriteCopy written splits | rewriteRetire =>
    obtain ⟨job, hj, h⟩ := bind_eq_some_iff.mp h
    exact hi.stepRewrite hj h

theorem Inv.run [DecidableEq α] {acts : List (Action α)}
    (h : Run.run (Rewrite.step key) Table.init acts = some s) : Inv key s :=
  Run.run_invariant (fun _ _ _ hi hs => Inv.step hi hs) Inv.init h

/-- The rows found by a new reader are those shown when nothing more commits. -/
theorem Inv.mem_readRows_latest (hi : Inv key s) : f ∈ s.readRows s.clock.latest ↔
    ∃ g, Here (fun x => s.clock.status x = .committed) s.groups s.marks
      (s.hidden fun x => s.clock.status x = .committed) f.group f.number f.row g := by
  rw [mem_readRows]
  constructor
  · rintro ⟨g, hg, hvis, hrow, hdel⟩
    simp only [groupVisible_iff, sees_latest hi.wf] at hvis
    refine ⟨g, hg, hrow, hvis.1, hvis.2, ?_, fun m hm hf hrow' hcom => ?_⟩
    · rintro ⟨job, hj, hcom, _⟩
      exact (hi.job job hj).live hcom
    · have := any_eq_false.mp hdel m hm
      simp [hf, hrow', (sees_latest hi.wf).mpr hcom] at this
  · rintro ⟨g, h⟩
    refine ⟨g, h.group, ?_, h.row, ?_⟩
    · simp only [groupVisible_iff, sees_latest hi.wf]
      exact ⟨h.inserter, h.kept⟩
    · refine any_eq_false.mpr fun m hm hall => ?_
      simp only [Bool.and_eq_true, decide_eq_true_eq] at hall
      exact h.unmarked m hm hall.1.1 hall.1.2 hall.2.1

theorem Inv.mem_expectedRows (hi : Inv key s) : r ∈ s.expectedRows ↔
    Expected (fun x => s.clock.status x = .committed) s.marks s.inserted r := by
  simp only [Table.expectedRows, mem_map, mem_filter, Bool.and_eq_true,
    decide_eq_true_eq, all_eq_true, Bool.or_eq_true]
  constructor
  · rintro ⟨e, ⟨he, hcom, hall⟩, rfl⟩
    refine ⟨⟨e.1, he, hcom⟩, fun m hm _ horig hcm => ?_⟩
    rcases hall m hm with hne | hnc
    · exact hne horig
    · exact hnc hcm
  · rintro ⟨⟨x, hin, hcom⟩, hunm⟩
    refine ⟨(x, r), ⟨hin, hcom, fun m hm => ?_⟩, rfl⟩
    by_cases horig : m.origin = r.origin
    · exact .inr fun hcm => hunm m hm (hi.markFlushed m hm hcm) horig hcm
    · exact .inl horig

theorem Inv.nodup_expectedRows (hi : Inv key s) : (s.expectedRows.map (·.origin)).Nodup := by
  have hrange : s.inserted.map (fun e => e.2.origin) = List.range s.inserted.length := by
    apply ext_getElem?
    intro k
    rw [getElem?_map]
    by_cases hk : k < s.inserted.length
    · rw [getElem?_eq_getElem hk, getElem?_range hk, Option.map_some,
        hi.inserted k _ (getElem?_eq_getElem hk)]
    · rw [getElem?_eq_none (Nat.le_of_not_lt hk),
        getElem?_eq_none (by rw [length_range]; exact Nat.le_of_not_lt hk)]
      rfl
  rw [Table.expectedRows, map_map]
  refine List.Nodup.sublist (List.Sublist.map _ filter_sublist) ?_
  exact (show s.inserted.map (fun e => e.2.origin) = _ from hrange) ▸ nodup_range

theorem Inv.nodup_committedRows (hi : Inv key s) : (s.committedRows.map (·.origin)).Nodup := by
  rw [Table.committedRows, map_map]
  refine List.Nodup.map_on ?_ nodup_readRows
  intro f hf f' hf' horig
  obtain ⟨g, h⟩ := hi.mem_readRows_latest.mp hf
  obtain ⟨g', h'⟩ := hi.mem_readRows_latest.mp hf'
  exact Here.found_eq hi (.now _) h h' horig

/-- The committed rows are those of the committed inserts that no committed delete has
removed, each once: no delete is undone by a copy, and no row is copied and also kept. -/
theorem committedRows_perm [DecidableEq α] (key : ℕ → ℕ) (acts : List (Action α)) (s : Table α)
    (h : Run.run (step key) Table.init acts = some s) :
    s.committedRows.Perm s.expectedRows ∧ (s.committedRows.map (·.origin)).Nodup := by
  have hi := Inv.run h
  refine ⟨?_, hi.nodup_committedRows⟩
  rw [perm_ext_iff_of_nodup (hi.nodup_committedRows.of_map _) (hi.nodup_expectedRows.of_map _)]
  intro r
  rw [hi.mem_expectedRows, ← (hi.view _ (.now _)).same, Table.committedRows, mem_map]
  constructor
  · rintro ⟨f, hf, rfl⟩
    obtain ⟨g, h⟩ := hi.mem_readRows_latest.mp hf
    exact ⟨f.group, f.number, g, h⟩
  · rintro ⟨i, n, g, h⟩
    exact ⟨⟨i, n, r⟩, hi.mem_readRows_latest.mpr ⟨g, h⟩, rfl⟩

/-- A recluster among writers: transaction 1 deletes a row before the rewrite can lock the
group, 3 inserts one in between, and 4 has marked a row of the old group and gives up. -/
def busyRecluster : List (Action ℕ) :=
  [.begin, .flushRowGroup 0 1 [30, 10, 20], .commit 0,
    .begin, .markRowDeleted 1 2, .flushDeleteVector 1 0,
    .begin, .rewriteList 2 (.recluster id),
    .begin, .flushRowGroup 3 4 [40], .commit 3, .commit 1,
    .begin, .markRowDeleted 4 3,
    .rewriteLock, .rewriteSnapshot, .rewriteCopy [⟨2, 20⟩, ⟨0, 30⟩] [(5, 2)], .rewriteRetire,
    .commit 2, .abort 4]

theorem committedRows_perm_busyRecluster :
    ∃ s, Run.run (step id) Table.init busyRecluster = some s ∧
      s.committedRows = [⟨3, 40⟩, ⟨2, 20⟩, ⟨0, 30⟩] ∧ s.committedRows.Perm s.expectedRows := by
  have hrun : (Run.run (step id) Table.init busyRecluster).map Table.committedRows =
      some [⟨3, 40⟩, ⟨2, 20⟩, ⟨0, 30⟩] := by
    decide +kernel
  obtain ⟨s, hs, hrows⟩ := map_eq_some_iff.mp hrun
  exact ⟨s, hs, hrows, (committedRows_perm id busyRecluster s hs).1⟩

end PgColumnar.Rewrite
