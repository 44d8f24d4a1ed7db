import Mathlib.Algebra.Order.Ring.Nat
import PgColumnar.Sorted.Pathkeys
import PgColumnar.Sorted.Run

/-!
# When the claimed order is the order returned

A lexicographic run is recorded by an eager rewrite only, which has the relation to itself.
From then on every row group of another writer is flushed by someone who sees a recorded
run, and lies outside of it: so it invalidates the relation.

A scan returns rows in the claimed order when it sees no such row group that planning did
not see.  Nothing makes sure of that for a plan that is executed once, since its execution
takes a later snapshot and no invalidation is looked at in between.

## Main definitions

* `Plan.Ok`, `Sys.Inv` — the plan that a session holds, and the invalidations it gets.

## Main results

* `claimedOrder_run` — timely executions return the rows in the order claimed.
-/

namespace PgColumnar.Sorted

open Mvcc Write List Option Nat Bool

variable {α : Type} {le : Order → α → α → Bool} {s s' : State α} {job : Job α}

/-! ## What a step does to the recorded runs -/

/-- A row group new in the catalog: its writer is at work, and no rewrite that recorded a
run wrote it. -/
structure Fresh (s : State α) (g : Group α) : Prop where
  running : s.clock.status g.subid = .running
  lockFree : s.lockFree s.exclusive g.subid = true
  job : ∀ m ∈ s.marks, g.job ≠ some m.job

/-- What a step of the writers does to the recorded runs. -/
structure Grows (s s' : State α) : Prop where
  clock : s.clock.Next s'.clock
  top : ∀ x, s.clock.status x ≠ .unused → s'.top x = s.top x
  next : s.metapage.reservedStripeId ≤ s'.metapage.reservedStripeId
  exclusive : s'.exclusive = s.exclusive ∨
    s.metapage.reservedStripeId = newMetapage.reservedStripeId ∧ s'.clock = s.clock ∧
      ∃ x, s'.exclusive = some x ∧ s.clock.status x = .running
  old : ∀ i < s.groups.length, s'.groups[i]?.map (·.job) = s.groups[i]?.map (·.job)
  new : ∀ i g, s.groups.length ≤ i → s'.groups[i]? = some g → Fresh s g
  marks : ∀ m ∈ s'.marks, m ∈ s.marks ∨ (m.order.kind = .lexicographic →
    s.exclusive = some m.xid ∧ s.clock.status m.xid = .running ∧
      newMetapage.reservedStripeId < s.metapage.reservedStripeId ∧
      ∀ g ∈ s'.groups, g.job = some m.job)
  marks_mono : ∀ m ∈ s.marks, m ∈ s'.marks
  job : ∀ job' ∈ s'.job, (s'.exclusive = s.exclusive ∧ ∃ job ∈ s.job, job'.xid = job.xid ∧
      job'.order = job.order ∧ job'.eager = job.eager) ∨
    s'.lockFree s'.exclusive job'.xid = true ∧
      (job'.order.kind = .lexicographic → job'.eager = true)

/-- What the claim rests on: a lexicographic run is recorded under the exclusive lock. -/
structure Claims (s : State α) : Prop where
  exclusive : ∀ y ∈ s.exclusive, s.clock.status y ≠ .unused
  used : ∀ m ∈ s.marks, m.order.kind = .lexicographic → s.clock.status m.xid ≠ .unused
  locked : ∀ m ∈ s.marks, m.order.kind = .lexicographic → s.clock.status m.xid = .running →
    s.exclusive = some m.xid
  drawn : ∀ m ∈ s.marks, m.order.kind = .lexicographic →
    newMetapage.reservedStripeId < s.metapage.reservedStripeId
  lockFree : ∀ job ∈ s.job, s.lockFree s.exclusive job.xid = true
  eager : ∀ job ∈ s.job, job.order.kind = .lexicographic → job.eager = true

theorem Claims.init : Claims (State.init : State α) where
  exclusive _ hy := nomatch hy
  used _ hm := nomatch hm
  locked _ hm := nomatch hm
  drawn _ hm := nomatch hm
  lockFree _ hj := nomatch hj
  eager _ hj := nomatch hj

variable {x : ℕ}

theorem lockFree_iff {holder : Option ℕ} : s.lockFree holder x = true ↔
    ∀ y ∈ holder, s.clock.status y = .running → s.top y = s.top x := by
  simp only [State.lockFree, Option.all_eq_true, or_eq_true, decide_eq_true_eq]
  constructor
  · intro h y hy hrun
    rcases h y hy with hne | htop
    · exact absurd hrun hne
    · exact htop
  · intro h y hy
    by_cases hrun : s.clock.status y = .running
    · exact .inr (h y hy hrun)
    · exact .inl hrun

/-- A lock that is free stays free until it is taken. -/
theorem Grows.lockFree {holder : Option ℕ} (h : Grows s s') (hc : s.clock.Wf)
    (hx : s.clock.status x ≠ .unused) (hholder : ∀ y ∈ holder, s.clock.status y ≠ .unused)
    (hfree : s.lockFree holder x = true) : s'.lockFree holder x = true := by
  rw [lockFree_iff] at hfree ⊢
  intro y hy hrun
  rw [h.top x hx, h.top y (hholder y hy)]
  apply hfree y hy
  rcases h.clock.running hrun with hrun | rfl
  · exact hrun
  · exact absurd (hc.unused _ (le_refl _)) (hholder _ hy)

variable {m : Mark}

/-- The lock passes into other hands only on a storage without a lexicographic run. -/
theorem Grows.exclusive_eq (h : Grows s s') (hcl : Claims s) (hm : m ∈ s.marks)
    (hlex : m.order.kind = .lexicographic) : s'.exclusive = s.exclusive := by
  rcases h.exclusive with heq | ⟨hnew, _⟩
  · exact heq
  · have hlt := hcl.drawn m hm hlex
    omega

theorem Claims.step (h : Claims s) (hinv : Inv le s) (hg : Grows s s') : Claims s' where
  exclusive y hy := by
    rcases hg.exclusive with heq | ⟨_, hclock, x, hx, hrun⟩
    · rw [heq] at hy
      exact hg.clock.used (h.exclusive y hy)
    · rw [hx] at hy
      cases hy
      rw [hclock, hrun]
      nofun
  used m hm hlex := by
    rcases hg.marks m hm with hm | hnew
    · exact hg.clock.used (h.used m hm hlex)
    · apply hg.clock.used
      rw [(hnew hlex).2.1]
      nofun
  locked m hm hlex hrun := by
    rcases hg.marks m hm with hm | hnew
    · rw [hg.exclusive_eq h hm hlex]
      apply h.locked m hm hlex
      rcases hg.clock.running hrun with hrun | hnext
      · exact hrun
      · exact absurd (hinv.clock.unused _ (le_of_eq hnext.symm)) (h.used m hm hlex)
    · obtain ⟨hexcl, _, hlt, _⟩ := hnew hlex
      rcases hg.exclusive with heq | ⟨hfirst, _⟩
      · rw [heq, hexcl]
      · omega
  drawn m hm hlex := by
    apply lt_of_lt_of_le _ hg.next
    rcases hg.marks m hm with hm | hnew
    · exact h.drawn m hm hlex
    · exact (hnew hlex).2.2.1
  lockFree job' hj' := by
    rcases hg.job job' hj' with ⟨hexcl, job, hj, hxid, _⟩ | ⟨hfree, _⟩
    · rw [hexcl, hxid]
      apply hg.lockFree hinv.clock _ h.exclusive (h.lockFree job hj)
      rw [(hinv.job job hj).running]
      nofun
    · exact hfree
  eager job' hj' hlex := by
    rcases hg.job job' hj' with ⟨_, job, hj, _, horder, heager⟩ | ⟨_, heager⟩
    · rw [heager]
      apply h.eager job hj
      rw [← horder]
      exact hlex
    · exact heager hlex

/-! ## The steps of the writers -/

/-- The catalog keeps its row groups, and nothing is recorded. -/
theorem Grows.of_jobs (hclock : s.clock.Next s'.clock)
    (htop : ∀ x, s.clock.status x ≠ .unused → s'.top x = s.top x)
    (hnext : s.metapage.reservedStripeId ≤ s'.metapage.reservedStripeId)
    (hexcl : s'.exclusive = s.exclusive) (hmarks : s'.marks = s.marks)
    (hgroups : s'.groups.map (·.job) = s.groups.map (·.job))
    (hjob : ∀ job' ∈ s'.job, ∃ job ∈ s.job, job'.xid = job.xid ∧ job'.order = job.order ∧
      job'.eager = job.eager) : Grows s s' where
  clock := hclock
  top := htop
  next := hnext
  exclusive := .inl hexcl
  old i _ := by
    rw [← getElem?_map, hgroups, getElem?_map]
  new i g hi hg := by
    have hlen := congrArg List.length hgroups
    rw [length_map, length_map] at hlen
    have hlt := (List.getElem?_eq_some_iff.mp hg).1
    omega
  marks m hm := .inl (hmarks ▸ hm)
  marks_mono m hm := hmarks ▸ hm
  job job' hj' := .inl ⟨hexcl, hjob job' hj'⟩

variable {t : State α}

/-- Row groups are added. -/
theorem Grows.addGroups (h : Grows s t) (hgroups : t.groups = s.groups)
    (hmarks : t.marks = s.marks) {j : Option ℕ} {gs : List (RowGroup α)}
    (hrun : ∀ g ∈ gs, s.clock.status g.subid = .running ∧ s.lockFree s.exclusive g.subid = true)
    (hj : ∀ m ∈ s.marks, j ≠ some m.job) : Grows s (t.addGroups j gs) :=
  { h with
    old i hi := by
      rw [State.addGroups, hgroups]
      simp [getElem?_append_left hi]
    new i g hi hg := by
      simp only [State.addGroups, hgroups] at hg
      rw [getElem?_append_right hi, getElem?_map] at hg
      obtain ⟨r, hr, rfl⟩ := map_eq_some_iff.mp hg
      obtain ⟨hstatus, hfree⟩ := hrun r (mem_of_getElem? hr)
      exact ⟨hstatus, hfree, hj⟩
    marks m hm := .inl (hmarks ▸ hm) }

variable {g : Group α}

theorem retire_getElem? {i : ℕ} {numbers : List ℕ} (hg : (s.retire x numbers).groups[i]? = some g) :
    ∃ g₀, s.groups[i]? = some g₀ ∧ g.job = g₀.job ∧ g.subid = g₀.subid := by
  simp only [State.retire, getElem?_map] at hg
  obtain ⟨g₀, hg₀, rfl⟩ := map_eq_some_iff.mp hg
  refine ⟨g₀, hg₀, ?_⟩
  split <;> exact ⟨rfl, rfl⟩

theorem retire_jobs (x : ℕ) (numbers : List ℕ) :
    (s.retire x numbers).groups.map (·.job) = s.groups.map (·.job) := by
  have h := congrArg (fun l => l.pieces.map Piece.job) (ledger_retire (s := s) x numbers)
  simpa [State.ledger, Function.comp_def, Group.piece] using h

theorem delete_jobs (x n k : ℕ) : (s.delete x n k).groups.map (·.job) = s.groups.map (·.job) := by
  have h := congrArg (fun l => l.pieces.map Piece.job) (ledger_delete (s := s) x n k)
  simpa [State.ledger, Function.comp_def, Group.piece] using h

theorem Grows.retire (h : Grows s t) (hmarks : t.marks = s.marks) (x : ℕ)
    (numbers : List ℕ) : Grows s (t.retire x numbers) :=
  { h with
    old i hi := by
      rw [← h.old i hi, ← getElem?_map, retire_jobs, getElem?_map]
    new i g hi hg := by
      obtain ⟨g₀, hg₀, hjob, hsub⟩ := retire_getElem? hg
      obtain ⟨hrun, hfree, hmark⟩ := h.new i g₀ hi hg₀
      exact ⟨by rw [hsub]; exact hrun, by rw [hsub]; exact hfree, by rw [hjob]; exact hmark⟩
    marks m hm := .inl (hmarks ▸ hm) }

/-- The rewrite ends and records its run. -/
theorem Grows.setSortedExtent (h : Grows s t) (hmarks : t.marks = s.marks) {e : Option (ℕ × ℕ)}
    (he : e ≠ none → job.order.kind = .lexicographic → s.exclusive = some job.xid ∧
      s.clock.status job.xid = .running ∧
      newMetapage.reservedStripeId < s.metapage.reservedStripeId ∧
      ∀ g ∈ t.groups, g.job = some job.number) :
    Grows s { t.setSortedExtent job e with job := none } := by
  cases e with
  | none => exact ⟨h.clock, h.top, h.next, h.exclusive, h.old, h.new, h.marks, h.marks_mono, nofun⟩
  | some e =>
    refine ⟨h.clock, h.top, h.next, h.exclusive, h.old, h.new, ?_, ?_, nofun⟩
    · refine forall_mem_append.mpr ⟨fun m hm => .inl (hmarks ▸ hm), forall_mem_singleton.mpr ?_⟩
      exact .inr (he nofun)
    · intro m hm
      exact mem_append_left _ (h.marks_mono m hm)

/-- What the rewrite writes is written under its own subtransaction. -/
theorem flushRowGroup_subid {ws : WriteState α} {keep : Bool} {g : RowGroup α}
    (hg : g ∈ (Write.flushRowGroup x keep ws).2) : g.subid = x := by
  unfold Write.flushRowGroup at hg
  split at hg
  · cases hg
  · split at hg
    · cases hg
    · rw [mem_singleton.mp hg]

theorem flushAtLimit_subid {ws : WriteState α} {g : RowGroup α} (hg : g ∈ (flushAtLimit x ws).2) :
    g.subid = x := by
  unfold flushAtLimit at hg
  split at hg
  · exact flushRowGroup_subid hg
  · cases hg

theorem flushWriteState_subid {ws : WriteState α} {g : RowGroup α}
    (hg : g ∈ (flushWriteState x ws).2) : g.subid = x := by
  simp only [flushWriteState, flushWithProjections] at hg
  split at hg
  · cases hg
  · split at hg
    · cases hg
    · split at hg <;> exact flushRowGroup_subid hg

theorem Grows.jobWriteRow (h : Inv le s) (hcl : Claims s) (hj : s.job = some job) (row : α)
    (rest : List α) (w : Writer α) (stripeMark : ℕ) :
    Grows s (s.jobWriteRow job row rest w stripeMark) := by
  unfold State.jobWriteRow
  refine Grows.addGroups ?_ ?_ ?_ ?_ ?_
  · refine Grows.of_jobs .refl (fun _ _ => rfl) ?_ rfl rfl rfl ?_
    · simp only [writeRow, reserveStripe]
      split <;> simp [Metapage.reserveRowNumbers]
    · intro job' hj'
      cases hj'
      exact ⟨job, hj, rfl, rfl, rfl⟩
  · rfl
  · rfl
  · intro g hg
    rw [flushAtLimit_subid hg]
    exact ⟨(h.job job hj).running, hcl.lockFree job hj⟩
  · intro m hm heq
    exact (h.job job hj).unmarked m hm (Option.some.inj heq).symm

/-- A storage in which a row group is visible has given out an id. -/
theorem Inv.drawn (h : Inv le s) (hg : g ∈ s.groups) :
    newMetapage.reservedStripeId < s.metapage.reservedStripeId := by
  have howned := h.ledger.owned g.piece (mem_map_of_mem hg)
  obtain ⟨hle, hlt⟩ := (h.ledger.drawn _).mp howned
  exact lt_of_le_of_lt hle hlt

/-- Alone, the eager rewrite wrote every row group there is. -/
theorem JobInv.job_of_eager (h : JobInv le s job) (hl : s.ledger.Wf s.jobs)
    (he : job.eager = true) (hg : g ∈ s.groups) : g.job = some job.number := by
  have hmem : g.piece ∈ s.ledger.pieces := mem_map_of_mem hg
  obtain ⟨o, ho⟩ := ne_none_iff_exists'.mp (hl.owned g.piece hmem)
  rw [(h.alone he).2 _ o ho] at ho
  exact hl.written g.piece hmem _ ho

theorem Grows.jobFinish (h : Inv le s) (hcl : Claims s) (hj : s.job = some job) {w : Writer α}
    {stripeMark : ℕ} (hphase : job.phase = .writing [] w stripeMark) :
    Grows s (s.jobFinish job w stripeMark) := by
  have hjob := h.job job hj
  have hflush : Grows s (s.jobFlush job w) := by
    refine Grows.addGroups (Grows.of_jobs .refl (fun _ _ => rfl) (le_refl _) rfl rfl rfl ?_)
      rfl rfl ?_ ?_
    · intro job' hj'
      exact ⟨job', hj', rfl, rfl, rfl⟩
    · intro g hg
      rw [flushWriteState_subid hg]
      exact ⟨hjob.running, hcl.lockFree job hj⟩
    · intro m hm heq
      exact hjob.unmarked m hm (Option.some.inj heq).symm
  refine (hflush.retire rfl job.xid job.oldGroups).setSortedExtent rfl ?_
  intro he hlex
  have heager := hcl.eager job hj hlex
  obtain ⟨w', _, _, _, hinv⟩ := h.jobFlush hj hphase
  have hall : ∀ g ∈ ((s.jobFlush job w).retire job.xid job.oldGroups).groups,
      g.job = some job.number := by
    intro g hg
    obtain ⟨i, hi⟩ := mem_iff_getElem?.mp hg
    obtain ⟨g₀, hg₀, hjob₀, _⟩ := retire_getElem? hi
    rw [hjob₀]
    exact (hinv.job _ rfl).job_of_eager hinv.ledger heager (mem_of_getElem? hg₀)
  refine ⟨(hjob.alone heager).1, hjob.running, ?_, hall⟩
  -- a run is recorded only when there are groups
  rw [Job.extent, if_pos heager] at he
  have hne : ((s.jobFlush job w).retire job.xid job.oldGroups).readRowGroupList job.xid ≠ [] := by
    intro hnil
    rw [hnil] at he
    exact he rfl
  obtain ⟨g, hg⟩ := exists_mem_of_ne_nil _ hne
  obtain ⟨i, hi⟩ := mem_iff_getElem?.mp (mem_readRowGroupList.mp hg).1
  obtain ⟨g₀, hg₀, _⟩ := retire_getElem? hi
  exact hinv.drawn (mem_of_getElem? hg₀)

theorem Grows.reclusterBegin {curve : Curve} {key : List String}
    (hx : s.lockFree s.exclusive x = true) (hnone : s.job = none)
    (hs : s.reclusterBegin x ⟨.curve curve, key⟩ = some s') : Grows s s' := by
  have hlock : Grows s { s with lock := some x } :=
    Grows.of_jobs .refl (fun _ _ => rfl) (le_refl _) rfl rfl rfl fun job hj => by
      rw [hnone] at hj
      cases hj
  unfold State.reclusterBegin at hs
  dsimp only at hs
  split at hs
  · cases hs
    exact hlock
  split at hs
  · cases hs
  split at hs
  · cases hs
    exact hlock
  · cases hs
    refine ⟨.refl, fun _ _ => rfl, le_refl _, .inl rfl, fun _ _ => rfl, ?_,
      fun m hm => .inl hm, fun m hm => hm, ?_⟩
    · intro i g hi hg
      exact absurd (List.getElem?_eq_some_iff.mp hg).1 (Nat.not_lt_of_le hi)
    · intro job' hj'
      cases hj'
      exact .inr ⟨hx, nofun⟩

section Step

variable [DecidableEq α]

theorem stepJob_grows (h : Inv le s) (hcl : Claims s) (hj : s.job = some job) {a : Action α}
    (hs : stepJob le s job a = some s') : Grows s s' := by
  have hkeep : ∀ {t : State α} {phase : Phase α}, t.job = some { job with phase := phase } →
      ∀ job' ∈ t.job, ∃ job ∈ s.job, job'.xid = job.xid ∧ job'.order = job.order ∧
        job'.eager = job.eager := by
    intro t phase ht job' hj'
    rw [ht] at hj'
    cases hj'
    exact ⟨job, hj, rfl, rfl, rfl⟩
  unfold Sorted.stepJob at hs
  split at hs
  · split at hs
    · split at hs
      · cases hs
        exact Grows.of_jobs .refl (fun _ _ => rfl) (le_refl _) rfl rfl rfl (hkeep rfl)
      · cases hs
    · cases hs
  · split at hs
    · cases hs
      exact Grows.jobWriteRow h hcl hj _ _ _ _
    · cases hs
  · split at hs
    · cases hs
      exact Grows.of_jobs .refl (fun _ _ => rfl) (le_succ _) rfl rfl rfl (hkeep rfl)
    · cases hs
  · split at hs
    · next hphase =>
      cases hs
      exact Grows.jobFinish h hcl hj hphase
    · cases hs
  · cases hs

theorem step_grows (h : Inv le s) (hcl : Claims s) {a : Action α} (hs : step le s a = some s') :
    Grows s s' := by
  have hsame : ∀ job' ∈ s.job, ∃ job ∈ s.job, job'.xid = job.xid ∧ job'.order = job.order ∧
      job'.eager = job.eager := fun job' hj' => ⟨job', hj', rfl, rfl, rfl⟩
  cases a with
  | begin =>
    cases hs
    exact Grows.of_jobs .begin (fun _ _ => rfl) (le_refl _) rfl rfl rfl hsame
  | beginSub t =>
    obtain ⟨_, hs⟩ := ite_none_right_eq_some.mp hs
    cases hs
    refine Grows.of_jobs .begin ?_ (le_refl _) rfl rfl rfl hsame
    intro x hx
    apply Function.update_of_ne
    intro heq
    exact hx (h.clock.unused x (le_of_eq heq.symm))
  | commit t =>
    obtain ⟨_, hs⟩ := ite_none_right_eq_some.mp hs
    cases hs
    refine Grows.of_jobs (.finish ?_ (.inl rfl)) (fun _ _ => rfl) (le_refl _) rfl rfl rfl hsame
    intro x hx
    exact (Clock.mem_running h.clock).mp (mem_filter.mp hx).1
  | abort xs =>
    obtain ⟨hxs, hs⟩ := ite_none_right_eq_some.mp hs
    cases hs
    refine Grows.of_jobs (.finish hxs (.inr rfl)) (fun _ _ => rfl) (le_refl _) rfl rfl rfl ?_
    intro job' hj'
    exact hsame job' (filter_eq_some_iff.mp hj').1
  | reserve x rowCount =>
    obtain ⟨_, hs⟩ := ite_none_right_eq_some.mp hs
    cases hs
    exact Grows.of_jobs .refl (fun _ _ => rfl) (le_succ _) rfl rfl rfl hsame
  | flushRowGroup x n firstRowNumber rows =>
    obtain ⟨hcond, hs⟩ := ite_none_right_eq_some.mp hs
    cases hs
    obtain ⟨hrun, hfree, _⟩ := allowed_iff.mp hcond.1
    refine Grows.addGroups (Grows.of_jobs .refl (fun _ _ => rfl) (le_refl _) rfl rfl rfl hsame)
      rfl rfl ?_ (by nofun)
    intro g hg
    rw [mem_singleton.mp hg]
    exact ⟨hrun, hfree⟩
  | delete x n k =>
    obtain ⟨_, hs⟩ := ite_none_right_eq_some.mp hs
    cases hs
    exact Grows.of_jobs .refl (fun _ _ => rfl) (le_refl _) rfl rfl (delete_jobs x n k) hsame
  | retire x numbers =>
    obtain ⟨_, hs⟩ := ite_none_right_eq_some.mp hs
    cases hs
    exact Grows.of_jobs .refl (fun _ _ => rfl) (le_refl _) rfl rfl (retire_jobs x numbers) hsame
  | recluster x curve key =>
    obtain ⟨hcond, hs⟩ := ite_none_right_eq_some.mp hs
    exact Grows.reclusterBegin (allowed_iff.mp hcond.1).2.1 (isNone_iff_eq_none.mp hcond.2.2) hs
  | rewrite x order rows sorted natts limit projections =>
    obtain ⟨hcond, hs⟩ := ite_none_right_eq_some.mp hs
    cases hs
    have hrun := (allowed_iff.mp hcond.1).1
    refine ⟨.refl, fun _ _ => rfl, le_refl _, .inr ⟨hcond.2.2.2.1, rfl, x, rfl, hrun⟩,
      fun _ _ => rfl, ?_, fun m hm => .inl hm, fun m hm => hm, ?_⟩
    · -- a rewrite that begins has written no group yet
      intro i g hi hg
      exact absurd (List.getElem?_eq_some_iff.mp hg).1 (Nat.not_lt_of_le hi)
    · intro job' hj'
      cases hj'
      refine .inr ⟨lockFree_iff.mpr ?_, fun _ => rfl⟩
      intro y hy _
      cases hy
      rfl
  | jobRead sorted w | jobWrite | jobReserve p rowCount | jobFinish =>
    obtain ⟨job, hj, hs⟩ := bind_eq_some_iff.mp hs
    exact stepJob_grows h hcl hj hs

end Step

/-! ## Invalidations -/

/-- Whoever flushes a row group sees every lexicographic run, unless it was rolled back. -/
theorem Claims.self_of_fresh (hcl : Claims s) (hm : m ∈ s.marks)
    (hlex : m.order.kind = .lexicographic) (hna : s.clock.status m.xid ≠ .aborted)
    (hg : Fresh s g) : s.self g.subid m.xid = true := by
  rw [State.self, or_eq_true, and_eq_true, decide_eq_true_eq, decide_eq_true_eq, decide_eq_true_eq]
  cases hstatus : s.clock.status m.xid with
  | unused => exact absurd hstatus (hcl.used m hm hlex)
  | running =>
    right
    exact ⟨rfl, lockFree_iff.mp hg.lockFree _ (hcl.locked m hm hlex hstatus) hstatus⟩
  | committed => exact .inl rfl
  | aborted => exact absurd hstatus hna

theorem sortedInfo_isSome (hm : m ∈ s.marks) (hself : s.self x m.xid = true) :
    ∃ m', s.sortedInfo x = some m' := by
  apply isSome_iff_exists.mp
  rw [State.sortedInfo, find?_isSome]
  exact ⟨m, mem_reverse.mpr hm, hself⟩

/-- A new row group lies outside the run that its writer looks up. -/
theorem Grows.outside (h : Grows s s') (hcl : Claims s) (hinv' : Inv le s')
    (hm : m ∈ s.marks) (hlex : m.order.kind = .lexicographic)
    (hna : s.clock.status m.xid ≠ .aborted) {i : ℕ} (hi : s.groups.length ≤ i)
    (hg : s'.groups[i]? = some g) :
    Sorted.outside (s.sortedInfo g.subid) g.groupNumber = true := by
  have hfresh := h.new i g hi hg
  obtain ⟨m', hinfo⟩ := sortedInfo_isSome hm (hcl.self_of_fresh hm hlex hna hfresh)
  have hm' := mem_marks_of_sortedInfo hinfo
  rw [hinfo, Sorted.outside, any_some, or_eq_true, decide_eq_true_eq, decide_eq_true_eq]
  by_contra hin
  -- the ids of a recorded range belong to the rewrite that recorded it
  have hjob := hinv'.job_of_range (h.marks_mono m' hm') (mem_of_getElem? hg) (by omega) (by omega)
  exact hfresh.job m' hm' hjob

theorem mem_newlyRegistered {i : ℕ} (hi : s.groups.length ≤ i) (hg : s'.groups[i]? = some g)
    (hout : outside (s.sortedInfo g.subid) g.groupNumber = true) : i ∈ newlyRegistered s s' := by
  rw [newlyRegistered, mem_filter, mem_range, and_eq_true, decide_eq_true_eq, hg]
  exact ⟨(List.getElem?_eq_some_iff.mp hg).1, hi, hout⟩

/-- Every row group outside a lexicographic run has its invalidation. -/
def Registered (s : State α) (registered : List ℕ) : Prop :=
  ∀ m ∈ s.marks, m.order.kind = .lexicographic → s.clock.status m.xid ≠ .aborted →
    ∀ i g, s.groups[i]? = some g → g.job ≠ some m.job → i ∈ registered

theorem Registered.step {registered : List ℕ} (h : Registered s registered) (hcl : Claims s)
    (hinv : Inv le s) (hinv' : Inv le s') (hg : Grows s s') :
    Registered s' (registered ++ newlyRegistered s s') := by
  intro m hm hlex hna i g hget hjob
  rcases hg.marks m hm with hm | hnew
  · have hna' : s.clock.status m.xid ≠ .aborted :=
      fun hab => hna (hg.clock.aborted hinv.clock hab)
    rw [mem_append]
    by_cases hi : i < s.groups.length
    · left
      have hold := hg.old i hi
      rw [hget, map_some] at hold
      obtain ⟨g₀, hg₀, hjob₀⟩ := map_eq_some_iff.mp hold.symm
      apply h m hm hlex hna' i g₀ hg₀
      rw [hjob₀]
      exact hjob
    · have hle := Nat.le_of_not_lt hi
      exact .inr (mem_newlyRegistered hle hget (hg.outside hcl hinv' hm hlex hna' hle hget))
  · exact absurd ((hnew hlex).2.2.2 g (mem_of_getElem? hget)) hjob

/-! ## Scans -/

theorem live_sublist (vis : ℕ → Bool) (g : Group α) : (g.live vis).Sublist g.rows := by
  have h := (filter_sublist (p := fun r : α × ℕ => !g.deleted vis r.2)
    (l := g.rows.zipIdx)).map (·.1)
  rwa [zipIdx_map_fst] at h

theorem flatMap_live_sublist (vis : ℕ → Bool) (gs : List (Group α)) :
    (gs.flatMap (Group.live vis)).Sublist (gs.flatMap (·.rows)) := by
  induction gs with
  | nil => exact .slnil
  | cons g gs ih =>
    rw [flatMap_cons, flatMap_cons]
    exact (live_sublist vis g).append ih

/-- When all the row groups a scan sees were written by the rewrite of the mark, it returns
the rows in the order of the mark. -/
theorem Inv.scanRows (h : Inv le s) (hm : m ∈ s.marks) {snap : Snapshot} {t : ℕ}
    (hall : ∀ g ∈ s.groups, g.visible (s.visAt snap t) = true → g.job = some m.job) :
    (s.scanRows snap t).Pairwise fun a b => le m.order a b = true := by
  have hrun : OneRun (le m.order) (s.groups.filter (Group.visible (s.visAt snap t))) := by
    apply (h.marks m hm).oneRun filter_sublist
    intro g hg
    exact hall g (mem_filter.mp hg).1 (mem_filter.mp hg).2
  have hsorted : s.readRowGroupListAt snap t = s.groups.filter (Group.visible (s.visAt snap t)) :=
    List.Pairwise.insertionSort_eq (hrun.numbers.imp fun hlt => le_of_lt hlt)
  rw [State.scanRows, hsorted]
  exact hrun.rows.sublist (flatMap_live_sublist _ _)

/-- What `pgcolumnar_sorted_pathkeys` has checked. -/
theorem sortedPathkeys_spec {enabled : Bool} {usable : String → Bool} {info : Option Mark}
    {groups : List (Group α)}
    (hsorted : groups.Pairwise fun g g' => g.groupNumber ≤ g'.groupNumber)
    (h : sortedPathkeys enabled usable info groups = some m) :
    info = some m ∧ m.order.kind = .lexicographic ∧
      ∀ g ∈ groups, m.sortedFrom ≤ g.groupNumber ∧ g.groupNumber ≤ m.sortedThrough := by
  unfold sortedPathkeys at h
  split at h
  · next hfirst hlast =>
    obtain ⟨hcond, h⟩ := ite_none_right_eq_some.mp h
    cases h
    refine ⟨rfl, hcond.2.1, fun g hg => ?_⟩
    have hbetween := between_of_pairwise hsorted hfirst hlast hg
    exact ⟨le_trans hcond.2.2.1 hbetween.1, le_trans hbetween.2 hcond.2.2.2.1⟩
  · cases h

/-! ## The session -/

/-- The plan the session holds: its mark is still in force, and planning saw the run only. -/
structure Plan.Ok (s : State α) (p : Plan) : Prop where
  mark : p.mark ∈ s.marks
  lex : p.mark.order.kind = .lexicographic
  notAborted : s.clock.status p.mark.xid ≠ .aborted
  listed : ∀ n ∈ p.listed, p.mark.sortedFrom ≤ n ∧ n ≤ p.mark.sortedThrough

structure Sys.Inv (le : Order → α → α → Bool) (s : Sys α) : Prop where
  table : Sorted.Inv le s.table
  claims : Claims s.table
  registered : Registered s.table s.registered
  plan : ∀ p ∈ s.session.plan, p.Ok s.table
  results : ∀ r ∈ s.session.results, r.2.Pairwise fun a b => le r.1 a b = true

/-- The session reads what it had read when it was planned: it has buffered nothing, and a
row group flushed outside of the run that the execution sees was seen by planning, or its
invalidation came in before the cached plan was reused. -/
def Timely (s : Sys α) : Event α → Prop
  | .execute cached =>
    s.session.buffered = [] ∧ ∀ p ∈ s.session.plan, ∀ i ∈ s.registered, ∀ g ∈ s.table.groups[i]?,
        g.visible (s.table.visAt s.session.snapshot s.session.xid) = true →
          g.groupNumber ∈ p.listed ∨ cached = true ∧ i ∈ s.session.accepted
  | _ => True

theorem Sys.Inv.init : Sys.Inv le (Sys.init : Sys α) where
  table := Sorted.Inv.init
  claims := Claims.init
  registered _ hm := nomatch hm
  plan _ hp := nomatch hp
  results _ hr := nomatch hr

variable {y y' : Sys α}

/-- The session goes on with the plan and the results it has. -/
theorem Sys.Inv.setSession (h : y.Inv le) {sent : List ℕ} {session : Session α}
    (hplan : session.plan = y.session.plan) (hresults : session.results = y.session.results) :
    Sys.Inv le { y with sent := sent, session := session } :=
  { h with
    plan := hplan ▸ h.plan
    results := hresults ▸ h.results }

section Session

variable [DecidableEq α]

theorem Sys.Inv.stepTable (h : y.Inv le) {a : Action α} (hs : y.stepTable le a = some y') :
    y'.Inv le := by
  obtain ⟨table, hstep, rfl⟩ := map_eq_some_iff.mp hs
  have hinv := h.table.step hstep
  have hg := step_grows h.table h.claims hstep
  refine ⟨hinv, h.claims.step h.table hg, h.registered.step h.claims h.table hinv hg, ?_, h.results⟩
  intro p hp
  obtain ⟨hp, hna⟩ := filter_eq_some_iff.mp hp
  have hok := h.plan p hp
  exact ⟨hg.marks_mono _ hok.mark, hok.lex, of_decide_eq_true hna, hok.listed⟩

theorem Sys.Inv.plan_step (h : y.Inv le) (enabled : Bool) (usable : String → Bool)
    (hs : y.step le enabled usable .plan = some y') : y'.Inv le := by
  cases hs
  refine ⟨h.table, h.claims, h.registered, ?_, h.results⟩
  intro p hp
  obtain ⟨m, hm, rfl⟩ := map_eq_some_iff.mp hp
  obtain ⟨hinfo, hlex, hbetween⟩ := sortedPathkeys_spec (insertionSort_pairwise _) hm
  have hself : y.table.self y.session.xid m.xid = true :=
    find?_some (p := fun m : Mark => y.table.self y.session.xid m.xid) hinfo
  refine ⟨mem_marks_of_sortedInfo hinfo, hlex, ?_, ?_⟩
  · intro hab
    have hab : y.table.clock.status m.xid = .aborted := hab
    simp [State.self, hab] at hself
  · intro n hn
    obtain ⟨g, hg, rfl⟩ := mem_map.mp hn
    exact hbetween g hg

omit [DecidableEq α] in
/-- A timely execution sees groups of the rewrite only. -/
theorem Sys.Inv.scanRows (h : y.Inv le) {p : Plan} (hp : y.session.plan = some p) {cached : Bool}
    (htimely : Timely y (.execute cached)) (hvalid : ¬(cached = true ∧ y.session.accepted ≠ [])) :
    (y.table.scanRows y.session.snapshot y.session.xid).Pairwise
      fun a b => le p.mark.order a b = true := by
  have hok := h.plan p hp
  apply h.table.scanRows hok.mark
  intro g hg hvis
  by_contra hjob
  obtain ⟨i, hi⟩ := mem_iff_getElem?.mp hg
  have hreg := h.registered p.mark hok.mark hok.lex hok.notAborted i g hi hjob
  rcases htimely.2 p hp i hreg g hi hvis with hlisted | ⟨hcached, haccepted⟩
  · obtain ⟨hfrom, hthrough⟩ := hok.listed _ hlisted
    exact hjob (h.table.job_of_range hok.mark hg hfrom hthrough)
  · exact hvalid ⟨hcached, ne_nil_of_mem haccepted⟩

theorem Sys.Inv.execute {enabled : Bool} {usable : String → Bool} (h : y.Inv le) {cached : Bool}
    (htimely : Timely y (.execute cached))
    (hs : y.step le enabled usable (.execute cached) = some y') : y'.Inv le := by
  obtain ⟨p, hp, hs⟩ := bind_eq_some_iff.mp hs
  split_ifs at hs with hvalid
  rw [htimely.1, Sys.flushBuffered] at hs
  cases hs
  refine ⟨h.table, h.claims, h.registered, h.plan, ?_⟩
  refine forall_mem_append.mpr ⟨h.results, forall_mem_singleton.mpr ?_⟩
  exact h.scanRows hp htimely hvalid

theorem Sys.Inv.step {enabled : Bool} {usable : String → Bool} (h : y.Inv le) {e : Event α}
    (htimely : Timely y e) (hs : y.step le enabled usable e = some y') : y'.Inv le := by
  cases e with
  | table a => exact h.stepTable hs
  | sendInval t | transaction t | buffer x n firstRowNumber rows =>
    obtain ⟨_, hs⟩ := ite_none_right_eq_some.mp hs
    cases hs
    exact h.setSession rfl rfl
  | acceptInvals | commandEnd | takeSnapshot =>
    cases hs
    exact h.setSession rfl rfl
  | plan => exact h.plan_step enabled usable hs
  | execute cached => exact h.execute htimely hs

end Session

/-- **The claimed order.**  In every run of writers and of a session that plans and executes
scans, the scans run under the claim that the rows are in the recorded order return them in
that order, provided each of them is timely. -/
theorem claimedOrder_run [DecidableEq α] (le : Order → α → α → Bool) (enabled : Bool)
    (usable : String → Bool) (events : List (Event α)) (s : Sys α)
    (hok : Run.AllSteps (Sys.step le enabled usable) Timely Sys.init events)
    (h : Run.run (Sys.step le enabled usable) Sys.init events = some s) :
    ∀ r ∈ s.session.results, r.2.Pairwise fun a b => le r.1 a b = true := by
  have hinv : Sys.Inv le s := Run.run_invariant_of
    (fun _ _ _ hs htimely hstep => Sys.Inv.step hs htimely hstep) Sys.Inv.init hok h
  exact hinv.results

instance (s : Sys α) : ∀ e : Event α, Decidable (Timely s e)
  | .execute _ => inferInstanceAs (Decidable (_ ∧ _))
  | .table _ | .sendInval _ | .acceptInvals | .commandEnd | .transaction _ | .takeSnapshot
  | .buffer .. | .plan => isTrue trivial

/-- A table is ordered by a rewrite, a session plans a scan of it, and another transaction
appends a row and commits. -/
def appendAfterPlan : List (Event ℕ) :=
  [.table .begin, .table (.rewrite 0 ⟨.lexicographic, ["a"]⟩ [2, 1] [1, 2] 1 .least 0),
    .table .jobWrite, .table .jobWrite, .table .jobFinish, .table (.commit 0),
    .table .begin, .transaction 1, .takeSnapshot, .plan,
    .table .begin, .table (.reserve 2 1000), .table (.flushRowGroup 2 2 1001 [0]),
    .table (.commit 2), .sendInval 2]

/-- The order of the numbers, whatever the key. -/
def natOrder (_ : Order) (a b : ℕ) : Bool := decide (a ≤ b)

/-- The scan runs under the snapshot of its planning. -/
theorem claimedOrder_run_sameSnapshot : ∃ s, Run.run (Sys.step natOrder true fun _ => true) Sys.init
        (appendAfterPlan ++ [.execute false]) = some s ∧
      s.session.results = [(⟨.lexicographic, ["a"]⟩, [1, 2])] ∧
      ∀ r ∈ s.session.results, r.2.Pairwise fun a b => natOrder r.1 a b = true := by
  have hrun : (Run.run (Sys.step natOrder true fun _ => true) Sys.init
      (appendAfterPlan ++ [.execute false])).map (fun s => s.session.results) =
        some [(⟨.lexicographic, ["a"]⟩, [1, 2])] := by
    decide +kernel
  have hok : Run.AllSteps (Sys.step natOrder true fun _ => true) Timely Sys.init
      (appendAfterPlan ++ [.execute false]) := by
    decide +kernel
  obtain ⟨s, hs, hresults⟩ := map_eq_some_iff.mp hrun
  exact ⟨s, hs, hresults, claimedOrder_run natOrder true _ _ s hok hs⟩

/-- The scan takes a snapshot of its own, and sees the row that was appended. -/
theorem not_claimedOrder_laterSnapshot :
    ∃ s, Run.run (Sys.step natOrder true fun _ => true) Sys.init
        (appendAfterPlan ++ [.takeSnapshot, .execute false]) = some s ∧
      s.session.results = [(⟨.lexicographic, ["a"]⟩, [1, 2, 0])] ∧
      ¬∀ r ∈ s.session.results, r.2.Pairwise fun a b => natOrder r.1 a b = true := by
  have hrun : (Run.run (Sys.step natOrder true fun _ => true) Sys.init
      (appendAfterPlan ++ [.takeSnapshot, .execute false])).map (fun s => s.session.results) =
        some [(⟨.lexicographic, ["a"]⟩, [1, 2, 0])] := by
    decide +kernel
  obtain ⟨s, hs, hresults⟩ := map_eq_some_iff.mp hrun
  refine ⟨s, hs, hresults, ?_⟩
  rw [hresults]
  decide

end PgColumnar.Sorted
