import PgColumnar.Sorted.Ledger
import Mathlib.Data.List.Flatten

/-!
# The recorded run holds the rewrite's groups only

Every step keeps the ledger in order, every mark ever recorded covers ids of its own
rewrite, and the rewrite under way writes its rows in order.  Since an id is drawn once,
no later step can put a foreign group into a recorded range; so when a gate finds all the
groups it sees in the range, they are groups of one rewrite and their rows are in its
order.

## Main definitions

* `JobInv`, `Inv` — the rewrite under way, and the marks.

## Main results

* `recorded_run` — a recorded range holds the groups of its rewrite only.
-/

namespace PgColumnar.Sorted

open Mvcc Write List Nat
open Option (bind_eq_some_iff ite_none_right_eq_some)

variable {α : Type}

def Group.piece (g : Group α) : Piece α := ⟨g.groupNumber, g.rows, g.job⟩

def State.ledger (s : State α) : Ledger α :=
  ⟨s.metapage.reservedStripeId, s.owner, s.groups.map Group.piece⟩

/-! ## The invariant -/

/-- How far the rewrite is. -/
def Job.Progress (le : Order → α → α → Bool) (l : Ledger α) (job : Job α) : Prop :=
  match job.phase with
  | .listed => l.ofJob job.number = []
  | .writing rest w stripeMark =>
    w.state.subid = job.xid ∧ w.state.flushedUnder = none ∧
      Writing (le job.order) l job.number rest w stripeMark

/-- The rewrite under way has recorded nothing yet, and an eager one is alone. -/
structure JobInv (le : Order → α → α → Bool) (s : State α) (job : Job α) : Prop where
  running : s.clock.status job.xid = .running
  number_lt : job.number < s.jobs
  unmarked : ∀ m ∈ s.marks, m.job ≠ job.number
  alone : job.eager = true → s.exclusive = some job.xid ∧
    ∀ n o, s.owner n = some o → o = .job job.number
  progress : job.Progress le s.ledger

structure Inv (le : Order → α → α → Bool) (s : State α) : Prop where
  clock : s.clock.Wf
  ledger : s.ledger.Wf s.jobs
  marks : ∀ m ∈ s.marks, Marked le s.ledger s.jobs m
  job : ∀ job ∈ s.job, JobInv le s job

variable {le : Order → α → α → Bool} {s s' : State α} {job : Job α}

theorem Inv.init : Inv le (State.init : State α) where
  clock := Clock.Wf.init
  ledger :=
    { first_le := le_refl _
      drawn := fun _ => ⟨fun h => absurd rfl h, fun h => absurd h.1 (Nat.not_le_of_lt h.2)⟩
      owned := fun _ hp => nomatch hp
      written := fun _ hp => nomatch hp
      old := fun _ hp => nomatch hp }
  marks _ hm := nomatch hm
  job _ hj := nomatch hj

/-! ## Steps that leave the ledger alone -/

theorem JobInv.congr (h : JobInv le s job) (hrun : s'.clock.status job.xid = .running)
    (hledger : s'.ledger = s.ledger) (hmarks : s'.marks = s.marks) (hjobs : s'.jobs = s.jobs)
    (hexcl : s'.exclusive = s.exclusive) : JobInv le s' job where
  running := hrun
  number_lt := hjobs ▸ h.number_lt
  unmarked := hmarks ▸ h.unmarked
  alone he := by
    have howner : s'.owner = s.owner := congrArg Ledger.owner hledger
    rw [hexcl, howner]
    exact h.alone he
  progress := by
    rw [hledger]
    exact h.progress

theorem Inv.congr (h : Inv le s) (hclock : s'.clock.Wf) (hledger : s'.ledger = s.ledger)
    (hmarks : s'.marks = s.marks) (hjobs : s'.jobs = s.jobs)
    (hjob : ∀ job ∈ s'.job, JobInv le s' job) : Inv le s' where
  clock := hclock
  ledger := by
    rw [hledger, hjobs]
    exact h.ledger
  marks := by
    rw [hledger, hjobs, hmarks]
    exact h.marks
  job := hjob

theorem ledger_retire (x : ℕ) (numbers : List ℕ) : (s.retire x numbers).ledger = s.ledger := by
  have hpiece : ∀ g : Group α, Group.piece (if g.groupNumber ∈ numbers ∧ g.visible (s.self x) = true
      then { g with retirer := some x } else g) = g.piece := by
    intro g
    split <;> rfl
  simp only [State.ledger, State.retire, map_map, Function.comp_def, hpiece]

theorem ledger_delete (x n k : ℕ) : (s.delete x n k).ledger = s.ledger := by
  have hpiece : ∀ g : Group α, Group.piece (if g.groupNumber = n
      then { g with deletes := (k, x) :: g.deletes } else g) = g.piece := by
    intro g
    split <;> rfl
  simp only [State.ledger, State.delete, map_map, Function.comp_def, hpiece]

theorem Inv.begin (h : Inv le s) (top : ℕ → ℕ) :
    Inv le { s with clock := s.clock.begin, top := top } := by
  refine h.congr (h.clock.step .begin) rfl rfl rfl ?_
  intro job hj
  refine (h.job job hj).congr ?_ rfl rfl rfl rfl
  have hrun := (h.job job hj).running
  have hne : job.xid ≠ s.clock.next := by
    intro heq
    rw [heq, h.clock.unused _ (le_refl _)] at hrun
    cases hrun
  rw [← hrun]
  exact Clock.begin_status_of_ne hne

/-- Subtransactions end, and a rewrite of theirs is given up. -/
theorem Inv.finish (h : Inv le s) {xs : List ℕ} {st : Status}
    (hxs : ∀ x ∈ xs, s.clock.status x = .running) (hst : st = .committed ∨ st = .aborted)
    {jobs : Option (Job α)} (hjobs : ∀ job ∈ jobs, job ∈ s.job ∧ job.xid ∉ xs) :
    Inv le { s with clock := s.clock.finish xs st, job := jobs } := by
  refine h.congr (h.clock.step (.finish hxs hst)) rfl rfl rfl ?_
  intro job hj
  obtain ⟨hmem, hnot⟩ := hjobs job hj
  refine (h.job job hmem).congr ?_ rfl rfl rfl rfl
  rw [← (h.job job hmem).running]
  exact Clock.finish_status_of_not_mem hnot

variable {groups : List (Group α)}

/-- Groups are changed, but not what the ledger has of them. -/
theorem Inv.setGroups (h : Inv le s) (hledger : { s with groups := groups }.ledger = s.ledger) :
    Inv le { s with groups := groups } :=
  h.congr h.clock hledger rfl rfl fun job hj =>
    (h.job job hj).congr (h.job job hj).running hledger rfl rfl rfl

/-! ## Steps of other writers -/

theorem ledger_addGroups (j : Option ℕ) (gs : List (RowGroup α)) :
    (s.addGroups j gs).ledger = s.ledger.add (gs.map fun g => ⟨g.groupNumber, g.rows, j⟩) := by
  simp only [State.ledger, State.addGroups, Ledger.add, map_append, map_map]
  rfl

theorem addGroups_nil (j : Option ℕ) : s.addGroups j [] = s := by
  simp [State.addGroups]

variable {x : ℕ}

theorem allowed_iff : s.allowed x = true ↔ s.clock.status x = .running ∧
    s.lockFree s.exclusive x = true ∧ ∀ job ∈ s.job, s.top job.xid ≠ s.top x := by
  simp [State.allowed, and_assoc, Option.all_eq_true]

/-- While an eager rewrite is under way nobody else can work on the relation. -/
theorem JobInv.not_eager (h : JobInv le s job) (hj : job ∈ s.job)
    (hx : s.allowed x = true) : job.eager = false := by
  obtain ⟨_, hfree, hother⟩ := allowed_iff.mp hx
  by_contra he
  obtain ⟨hexcl, _⟩ := h.alone (by simpa using he)
  rw [State.lockFree, hexcl] at hfree
  simp only [Option.all_some, Bool.or_eq_true, decide_eq_true_eq] at hfree
  rcases hfree with hstatus | htop
  · exact hstatus h.running
  · exact hother job hj htop

theorem JobInv.reserve (h : JobInv le s job) (hl : s.ledger.Wf s.jobs) (hj : job ∈ s.job)
    (hx : s.allowed x = true) (rowCount : ℕ) :
    JobInv le (s.reserve (.writer x) rowCount) job :=
  { h with
    alone he := by
      rw [h.not_eager hj hx] at he
      cases he
    progress := by
      have hp := h.progress
      unfold Job.Progress at hp ⊢
      split at hp
      · exact hp
      · exact ⟨hp.1, hp.2.1, hp.2.2.draw hl (.writer x)⟩ }

theorem Inv.reserve (h : Inv le s) (hx : s.allowed x = true) (rowCount : ℕ) :
    Inv le (s.reserve (.writer x) rowCount) where
  clock := h.clock
  ledger := h.ledger.draw (.writer x)
  marks m hm := (h.marks m hm).draw h.ledger (.writer x)
  job job hj := (h.job job hj).reserve h.ledger hj hx rowCount

theorem drewId_iff {n : ℕ} :
    s.drewId x n = true ↔ ∃ y, s.owner n = some (.writer y) ∧ s.top y = s.top x := by
  unfold State.drewId
  split
  · next y hy => simp [hy]
  · next hne =>
    simp only [Bool.false_eq_true, false_iff, not_exists, not_and]
    intro y hy
    exact absurd hy (hne y)

theorem JobInv.add (h : JobInv le s job) {p : Piece α} (hp : p.job ≠ some job.number)
    (hledger : s'.ledger = s.ledger.add [p]) (hclock : s'.clock = s.clock)
    (hmarks : s'.marks = s.marks) (hjobs : s'.jobs = s.jobs) (hexcl : s'.exclusive = s.exclusive) :
    JobInv le s' job where
  running := by
    rw [hclock]
    exact h.running
  number_lt := hjobs ▸ h.number_lt
  unmarked := hmarks ▸ h.unmarked
  alone he := by
    have howner : s'.owner = s.owner := congrArg Ledger.owner hledger
    rw [hexcl, howner]
    exact h.alone he
  progress := by
    have hprog := h.progress
    rw [hledger]
    unfold Job.Progress at hprog ⊢
    split at hprog
    · rw [Ledger.add_ofJob_of_ne hp]
      exact hprog
    · exact ⟨hprog.1, hprog.2.1, hprog.2.2.add hp⟩

/-- A writer that is no ordering rewrite writes a group. -/
theorem Inv.flushRowGroup (h : Inv le s) {n : ℕ} (hn : s.drewId x n = true)
    (firstRowNumber : ℕ) (rows : List α) :
    Inv le (s.addGroups none [⟨n, firstRowNumber, rows, x⟩]) := by
  obtain ⟨y, hy, _⟩ := drewId_iff.mp hn
  have hledger := ledger_addGroups (s := s) none [⟨n, firstRowNumber, rows, x⟩]
  have hown : s.ledger.owner n = some (.writer y) := hy
  refine ⟨h.clock, ?_, ?_, ?_⟩
  · rw [hledger]
    refine h.ledger.add ?_ ?_ ?_
    · rw [hown]
      nofun
    · intro j hj
      rw [hown] at hj
      cases hj
    · nofun
  · intro m hm
    rw [hledger]
    exact (h.marks m hm).add (by nofun)
  · intro job hj
    exact (h.job job hj).add (by nofun) hledger rfl rfl rfl rfl

/-! ## Steps of the rewrite -/

variable {order : Order} {sorted : List α}

theorem sortsTo_iff [DecidableEq α] {live : List α} : sortsTo le order live sorted = true ↔
      sorted.Perm live ∧ sorted.Pairwise fun a b => le order a b = true := by
  simp [sortsTo]

variable {w : Writer α}

theorem ownWriter_iff : s.ownWriter x w = true ↔ w.state.subid = x ∧ w.state.flushedUnder = none ∧
      (∀ st ∈ w.state.stripe, st.rows = [] ∧ s.drewId x st.stripeId = true) ∧
      (∀ i ∈ w.stripeIds, s.drewId x i = true) ∧ ∀ i ∈ w.projIds.flatten, s.drewId x i = true := by
  unfold State.ownWriter
  cases w.state.stripe with
  | none | some st => simp [and_assoc, -all_flatten, -mem_flatten]

/-- The rows are read and sorted, and nothing is written yet. -/
theorem writing_read {r : α → α → Bool} {j : ℕ} (hnone : s.ledger.ofJob j = [])
    (hw : s.ownWriter x w = true)
    (hsorted : sorted.Pairwise fun a b => r a b = true) :
    Writing r s.ledger j sorted w w.stripeIds.length := by
  obtain ⟨_, _, hstripe, hids, hproj⟩ := ownWriter_iff.mp hw
  have hbuf : w.buffered = [] := by
    unfold Writer.buffered
    cases hst : w.state.stripe with
    | none => rfl
    | some st => exact (hstripe st hst).1
  refine ⟨?_, ?_, ?_, ?_, le_refl _, ?_, ?_⟩
  · rw [hnone]
    exact List.Pairwise.nil
  · rw [hnone, hbuf]
    exact hsorted
  · rw [hnone]
    nofun
  · intro st hst
    obtain ⟨y, hy, _⟩ := drewId_iff.mp (hstripe st hst).2
    exact ⟨.writer y, hy, by nofun⟩
  · rw [drop_length]
    nofun
  · intro i hi
    obtain ⟨y, hy, _⟩ := drewId_iff.mp (hproj i hi)
    refine .inr ⟨?_, ?_⟩
    · have hown : s.ledger.owner i = some (.writer y) := hy
      rw [hown]
      nofun
    · rw [drop_length]
      nofun

variable {phase : Phase α}

/-- The rewrite goes on with its ledger, `p` being what it wrote. -/
theorem Inv.setPhase (h : Inv le s) (hj : s.job = some job)
    (hp : { job with phase := phase }.Progress le s.ledger) :
    Inv le { s with job := some { job with phase := phase } } := by
  refine h.congr h.clock rfl rfl rfl ?_
  intro job' hj'
  cases hj'
  have hold := h.job job hj
  exact ⟨hold.running, hold.number_lt, hold.unmarked, hold.alone, hp⟩

/-- The rewrite draws an id. -/
theorem Inv.jobDraw (h : Inv le s) (hj : s.job = some job)
    (hledger : s'.ledger = s.ledger.draw (.job job.number)) (hclock : s'.clock = s.clock)
    (hmarks : s'.marks = s.marks) (hjobs : s'.jobs = s.jobs) (hexcl : s'.exclusive = s.exclusive)
    (hjob : s'.job = some { job with phase := phase })
    (hp : { job with phase := phase }.Progress le s'.ledger) : Inv le s' where
  clock := hclock ▸ h.clock
  ledger := by
    rw [hledger, hjobs]
    exact h.ledger.draw _
  marks m hm := by
    rw [hmarks] at hm
    rw [hledger, hjobs]
    exact (h.marks m hm).draw h.ledger _
  job job' hj' := by
    rw [hjob] at hj'
    cases hj'
    have hold := h.job job hj
    refine ⟨?_, ?_, ?_, ?_, hp⟩
    · rw [hclock]
      exact hold.running
    · rw [hjobs]
      exact hold.number_lt
    · rw [hmarks]
      exact hold.unmarked
    · intro he
      rw [hexcl]
      refine ⟨(hold.alone he).1, fun n o ho => ?_⟩
      have ho' : s'.ledger.owner n = some o := ho
      rw [hledger] at ho'
      rcases Ledger.draw_cases ho' with ho' | ⟨_, rfl⟩
      · exact (hold.alone he).2 n o ho'
      · rfl

variable {rest : List α} {stripeMark : ℕ} {st : Stripe α}

/-- The rewrite writes the group of its stripe. -/
theorem Inv.jobAdd (h : Inv le s) (hj : s.job = some job)
    (hphase : job.phase = .writing rest w stripeMark)
    (hst : w.state.stripe = some st)
    (hledger : s'.ledger = s.ledger.add [⟨st.stripeId, st.rows, some job.number⟩])
    (hclock : s'.clock = s.clock) (hmarks : s'.marks = s.marks) (hjobs : s'.jobs = s.jobs)
    (hexcl : s'.exclusive = s.exclusive)
    (hjob : s'.job = some { job with
      phase := (.writing rest { w with state := w.state.resetStripe } stripeMark) }) :
    Inv le s' := by
  have hold := h.job job hj
  have hp := hold.progress
  rw [Job.Progress, hphase] at hp
  obtain ⟨hsub, hunder, hw⟩ := hp
  obtain ⟨o, ho, howner⟩ := hw.stripe st hst
  refine ⟨hclock ▸ h.clock, ?_, ?_, ?_⟩
  · rw [hledger, hjobs]
    refine h.ledger.add (by rw [ho]; nofun) ?_ ?_
    · intro j hj'
      rw [ho] at hj'
      rw [howner j (Option.some.inj hj')]
    · intro j hj'
      cases hj'
      exact hold.number_lt
  · intro m hm
    rw [hmarks] at hm
    rw [hledger, hjobs]
    refine (h.marks m hm).add ?_
    intro heq
    exact hold.unmarked m hm (Option.some.inj heq).symm
  · intro job' hj'
    rw [hjob] at hj'
    cases hj'
    refine ⟨by rw [hclock]; exact hold.running, by rw [hjobs]; exact hold.number_lt,
      by rw [hmarks]; exact hold.unmarked, ?_, ?_⟩
    · intro he
      have howner' : s'.owner = s.owner := congrArg Ledger.owner hledger
      rw [hexcl, howner']
      exact hold.alone he
    · rw [hledger]
      exact ⟨hsub, hunder, hw.flush hst⟩

/-- The rest of `PgColumnarWriteRow` once the stripe has its reservation. -/
def State.jobBufferRow (s : State α) (job : Job α) (row : α) (rest : List α) (w : Writer α)
    (st : Stripe α) (stripeMark : ℕ) : State α :=
  let f := flushAtLimit job.xid (bufferRow w.state st row)
  let s' :=
    { s with job := some { job with phase := .writing rest { w with state := f.1 } stripeMark } }
  s'.addGroups (some job.number) f.2

variable {row : α}

theorem jobWriteRow_of_some (hst : w.state.stripe = some st) :
    s.jobWriteRow job row rest w stripeMark = s.jobBufferRow job row rest w st stripeMark := by
  simp [State.jobWriteRow, State.jobBufferRow, writeRow, reserveStripe, hst]

/-- The state once a fresh stripe has its reservation. -/
def State.jobReserveStripe (s : State α) (job : Job α) (row : α) (rest : List α) (w : Writer α)
    (stripeMark : ℕ) : State α :=
  let st : Stripe α := ⟨s.metapage.reservedStripeId, s.metapage.reservedRowNumber, []⟩
  let w' : Writer α :=
    { w with
      state := { w.state with stripe := some st }
      stripeIds := w.stripeIds ++ [s.metapage.reservedStripeId] }
  { s.reserve (.job job.number) w.state.stripeRowLimit.rows with
    job := some { job with phase := .writing (row :: rest) w' stripeMark } }

theorem Inv.jobReserveStripe (h : Inv le s) (hj : s.job = some job)
    (hphase : job.phase = .writing (row :: rest) w stripeMark)
    (hst : w.state.stripe = none) : Inv le (s.jobReserveStripe job row rest w stripeMark) := by
  have hp := (h.job job hj).progress
  rw [Job.Progress, hphase] at hp
  refine h.jobDraw hj rfl rfl rfl rfl rfl rfl ?_
  exact ⟨hp.1, hp.2.1, hp.2.2.reserve h.ledger hst _⟩

theorem flushRowGroup_bufferRow (x : ℕ) (ws : WriteState α) (st : Stripe α) (row : α) :
    flushRowGroup x false (bufferRow ws st row) = ((bufferRow ws st row).resetStripe,
      [⟨st.stripeId, st.firstRowNumber, st.rows ++ [row], x⟩]) := by
  simp [flushRowGroup, bufferRow]

theorem Inv.jobBufferRow (h : Inv le s) (hj : s.job = some job)
    (hphase : job.phase = .writing (row :: rest) w stripeMark) (hst : w.state.stripe = some st) :
    Inv le (s.jobBufferRow job row rest w st stripeMark) := by
  have hp := (h.job job hj).progress
  rw [Job.Progress, hphase] at hp
  -- buffered first, then written at the limit
  have hbuf : Inv le { s with job := some { job with
      phase := (.writing rest { w with state := bufferRow w.state st row } stripeMark) } } :=
    h.setPhase hj ⟨hp.1, hp.2.1, hp.2.2.buffer hst⟩
  unfold State.jobBufferRow flushAtLimit
  split
  · rw [flushRowGroup_bufferRow]
    exact hbuf.jobAdd rfl rfl rfl (ledger_addGroups _ _) rfl rfl rfl rfl rfl
  · rw [addGroups_nil]
    exact hbuf

theorem Inv.jobWriteRow (h : Inv le s) (hj : s.job =
      some job) (hphase : job.phase = .writing (row :: rest) w stripeMark) :
    Inv le (s.jobWriteRow job row rest w stripeMark) := by
  cases hst : w.state.stripe with
  | some st =>
    rw [jobWriteRow_of_some hst]
    exact h.jobBufferRow hj hphase hst
  | none =>
    have hres := (h.jobReserveStripe hj hphase hst).jobBufferRow rfl rfl rfl
    simp only [State.jobWriteRow, writeRow, reserveStripe, hst, Option.isNone_none, if_true]
    exact hres

/-- After the last flush nothing is buffered. -/
theorem Inv.jobFlush (h : Inv le s) (hj : s.job = some job)
    (hphase : job.phase = .writing [] w stripeMark) :
    ∃ w' : Writer α, w'.stripeIds = w.stripeIds ∧ w'.projIds = w.projIds ∧ w'.buffered = [] ∧
      Inv le { s.jobFlush job w with
        job := some { job with phase := .writing [] w' stripeMark } } := by
  have hp := (h.job job hj).progress
  rw [Job.Progress, hphase] at hp
  obtain ⟨hsub, hunder, hw⟩ := hp
  have hgroups :
      (flushWriteState job.xid w.state).2 = (Write.flushRowGroup job.xid false w.state).2 := by
    simp [flushWriteState, flushWithProjections, hunder, hsub]
  have hset : Inv le { s with job := some { job with phase := .writing [] w stripeMark } } :=
    h.setPhase hj ⟨hsub, hunder, hw⟩
  cases hst : w.state.stripe with
  | none =>
    have hflush : (Write.flushRowGroup job.xid false w.state).2 = [] := by
      simp [Write.flushRowGroup, hst]
    refine ⟨w, rfl, rfl, by simp [Writer.buffered, hst], ?_⟩
    rw [State.jobFlush, hgroups, hflush, addGroups_nil]
    exact hset
  | some st =>
    by_cases hlen : st.rows.length = 0
    · have hflush : (Write.flushRowGroup job.xid false w.state).2 = [] := by
        simp [Write.flushRowGroup, hst, hlen]
      refine ⟨w, rfl, rfl, by simpa [Writer.buffered, hst] using hlen, ?_⟩
      rw [State.jobFlush, hgroups, hflush, addGroups_nil]
      exact hset
    · have hflush : (Write.flushRowGroup job.xid false w.state).2 =
          [⟨st.stripeId, st.firstRowNumber, st.rows, job.xid⟩] := by
        simp [Write.flushRowGroup, hst, hlen]
      refine ⟨{ w with state := w.state.resetStripe }, rfl, rfl, rfl, ?_⟩
      rw [State.jobFlush, hgroups, hflush]
      exact h.jobAdd hj hphase hst (ledger_addGroups (s := s) _ _) rfl rfl rfl rfl rfl

/-- Everything is written: the groups of the rewrite are a run. -/
theorem Writing.isRun {r : α → α → Bool} {l : Ledger α} {j : ℕ}
    (h : Writing r l j [] w stripeMark) (hbuf : w.buffered = []) : IsRun r (l.ofJob j) := by
  refine ⟨h.numbers, ?_⟩
  have hrows := h.rows
  rwa [hbuf, append_nil, append_nil] at hrows

variable {g : Group α}

theorem mem_readRowGroupList :
    g ∈ s.readRowGroupList x ↔ g ∈ s.groups ∧ g.visible (s.self x) = true := by
  rw [State.readRowGroupList, mem_insertionSort, mem_filter]

/-- Every id of the recorded range was drawn by the rewrite. -/
theorem JobInv.owner_of_extent (h : JobInv le s job) (hl : s.ledger.Wf s.jobs)
    (hw : Writing (le job.order) s.ledger job.number [] w stripeMark)
    (hgroups : ∀ g ∈ groups, s.owner g.groupNumber ≠ none)
    {first last : ℕ} (he : job.extent w stripeMark groups = some (first, last)) (n : ℕ)
    (hfirst : first ≤ n) (hlast : n ≤ last) : s.ledger.owner n = some (.job job.number) := by
  unfold Job.extent at he
  split at he
  · next heager =>
    -- alone, the eager rewrite drew every id there is
    obtain ⟨hmin, hmax⟩ := mem_of_recordSortedExtent he
    obtain ⟨g, hg, rfl⟩ := mem_map.mp hmin
    obtain ⟨g', hg', rfl⟩ := mem_map.mp hmax
    have hlow := (hl.drawn _).mp (hgroups g hg)
    have hhigh := (hl.drawn _).mp (hgroups g' hg')
    have hown : s.ledger.owner n ≠ none := (hl.drawn n).mpr (by omega)
    obtain ⟨o, ho⟩ := Option.ne_none_iff_exists'.mp hown
    rw [ho, (h.alone heager).2 n o ho]
  · exact hw.owner_of_extent he hfirst hlast

theorem recordOnlineSortedExtent_congr {w' : Writer α} (hids : w'.stripeIds = w.stripeIds)
    (hproj : w'.projIds = w.projIds) (stripeMark : ℕ) :
    recordOnlineSortedExtent w' stripeMark = recordOnlineSortedExtent w stripeMark := by
  simp only [recordOnlineSortedExtent, hids, hproj]

/-- The rewrite ends, and what it recorded is a mark. -/
theorem Inv.setSortedExtent (hclock : s.clock.Wf) (hledger : s.ledger.Wf s.jobs)
    (hmarks : ∀ m ∈ s.marks, Marked le s.ledger s.jobs m) {e : Option (ℕ × ℕ)}
    (he : ∀ first last, e = some (first, last) →
      Marked le s.ledger s.jobs ⟨first, last, job.order, job.xid, job.number⟩) :
    Inv le { s.setSortedExtent job e with job := none } := by
  cases e with
  | none => exact ⟨hclock, hledger, hmarks, by nofun⟩
  | some e =>
    obtain ⟨first, last⟩ := e
    refine ⟨hclock, hledger, ?_, by nofun⟩
    refine forall_mem_append.mpr ⟨hmarks, forall_mem_singleton.mpr ?_⟩
    exact he first last rfl

theorem Inv.jobFinish (h : Inv le s) (hj : s.job = some job)
    (hphase : job.phase = .writing [] w stripeMark) : Inv le (s.jobFinish job w stripeMark) := by
  obtain ⟨w', hids, hproj, hbuf, hflush⟩ := h.jobFlush hj hphase
  have hjob := hflush.job _ rfl
  have hw : Writing (le job.order) (s.jobFlush job w).ledger job.number [] w' stripeMark :=
    hjob.progress.2.2
  have hret := ledger_retire (s := s.jobFlush job w) job.xid job.oldGroups
  have hclock : ((s.jobFlush job w).retire job.xid job.oldGroups).clock.Wf := hflush.clock
  have hledger : ((s.jobFlush job w).retire job.xid job.oldGroups).ledger.Wf s.jobs := by
    rw [hret]
    exact hflush.ledger
  refine Inv.setSortedExtent hclock hledger ?_ ?_
  · intro m hm
    rw [hret]
    exact hflush.marks m hm
  · intro first last he
    rw [hret]
    refine ⟨hjob.number_lt, ?_, hw.isRun hbuf⟩
    have he' : job.extent w' stripeMark
        (((s.jobFlush job w).retire job.xid job.oldGroups).readRowGroupList job.xid) =
          some (first, last) := by
      rw [← he]
      simp only [Job.extent, recordOnlineSortedExtent_congr hids hproj]
    refine hjob.owner_of_extent hflush.ledger hw (fun g hg => ?_) he'
    exact hledger.owned g.piece (mem_map_of_mem (mem_readRowGroupList.mp hg).1)

/-! ## The start of a rewrite -/

theorem Inv.reclusterBegin (h : Inv le s) (hx : s.clock.status x = .running) (hnone : s.job = none)
    (hs : s.reclusterBegin x order = some s') : Inv le s' := by
  have hlock : Inv le { s with lock := some x } :=
    h.congr h.clock rfl rfl rfl fun job hj => by rw [hnone] at hj; cases hj
  unfold State.reclusterBegin at hs
  dsimp only at hs
  split at hs
  · cases hs
    exact hlock
  split at hs
  · cases hs
  split at hs
  · cases hs
    exact hlock
  · cases hs
    refine ⟨h.clock, h.ledger.mono (le_succ _), fun m hm => (h.marks m hm).mono (le_succ _), ?_⟩
    intro job hj
    cases hj
    refine ⟨hx, lt_succ_self _, ?_, by nofun, h.ledger.ofJob_eq_nil⟩
    intro m hm
    exact Nat.ne_of_lt (h.marks m hm).old

/-- A storage from which no id was drawn. -/
theorem Inv.owner_eq_none (h : Inv le s)
    (hnew : s.metapage.reservedStripeId = newMetapage.reservedStripeId) (n : ℕ) :
    s.owner n = none := by
  by_contra hn
  have hlt := (h.ledger.drawn n).mp hn
  have hnext : s.ledger.next = newMetapage.reservedStripeId := hnew
  omega

theorem Inv.rewrite [DecidableEq α] (h : Inv le s) {natts projections : ℕ}
    {rows : List α} {limit : RowLimit} (hx : s.clock.status x = .running)
    (hnew : s.metapage.reservedStripeId = newMetapage.reservedStripeId)
    (hsorted : sortsTo le order rows sorted = true) :
    Inv le { s with
      lock := some x
      exclusive := some x
      job := some ⟨x, s.jobs, order, true, [], .writing sorted
        (newWriter x natts limit projections) 0⟩
      jobs := s.jobs + 1 } := by
  refine ⟨h.clock, h.ledger.mono (le_succ _), fun m hm => (h.marks m hm).mono (le_succ _), ?_⟩
  intro job hj
  cases hj
  refine ⟨hx, lt_succ_self _, ?_, ?_, rfl, rfl, ?_⟩
  · intro m hm
    exact Nat.ne_of_lt (h.marks m hm).old
  · intro _
    refine ⟨rfl, fun n o ho => ?_⟩
    have hn := h.owner_eq_none hnew n
    rw [show s.owner n = some o from ho] at hn
    cases hn
  · have hnil := h.ledger.ofJob_eq_nil
    refine ⟨?_, ?_, by nofun, by nofun, zero_le _, by nofun, ?_⟩
    · show (s.ledger.ofJob s.jobs).Pairwise _
      rw [hnil]
      exact List.Pairwise.nil
    · show ((s.ledger.ofJob s.jobs).flatMap _ ++ [] ++ sorted).Pairwise _
      rw [hnil]
      exact (sortsTo_iff.mp hsorted).2
    · intro i hi
      simp [newWriter] at hi

/-! ## Runs -/

variable [DecidableEq α]

theorem Inv.stepJob (h : Inv le s) (hj : s.job = some job) {a : Action α}
    (hs : stepJob le s job a = some s') : Inv le s' := by
  unfold Sorted.stepJob at hs
  split at hs
  · next sorted w =>
    split at hs
    · next hphase =>
      have hp := (h.job job hj).progress
      rw [Job.Progress, hphase] at hp
      obtain ⟨hcond, hs⟩ := ite_none_right_eq_some.mp hs
      cases hs
      obtain ⟨hsub, hunder, _⟩ := ownWriter_iff.mp hcond.2
      exact h.setPhase hj ⟨hsub, hunder, writing_read hp hcond.2 (sortsTo_iff.mp hcond.1).2⟩
    · cases hs
  · split at hs
    · next hphase =>
      cases hs
      exact h.jobWriteRow hj hphase
    · cases hs
  · next p rowCount =>
    split at hs
    · next hphase =>
      cases hs
      have hp := (h.job job hj).progress
      rw [Job.Progress, hphase] at hp
      refine h.jobDraw hj rfl rfl rfl rfl rfl rfl ?_
      exact ⟨hp.1, hp.2.1, hp.2.2.projReserve h.ledger p⟩
    · cases hs
  · split at hs
    · next hphase =>
      cases hs
      exact h.jobFinish hj hphase
    · cases hs
  · cases hs

theorem Inv.step (h : Inv le s) {a : Action α} (hs : step le s a = some s') : Inv le s' := by
  cases a with
  | begin =>
    cases hs
    exact h.begin s.top
  | beginSub t =>
    obtain ⟨_, hs⟩ := ite_none_right_eq_some.mp hs
    cases hs
    exact h.begin _
  | commit t =>
    obtain ⟨hcond, hs⟩ := ite_none_right_eq_some.mp hs
    cases hs
    refine h.finish ?_ (.inl rfl) ?_
    · intro x hx
      exact (Clock.mem_running h.clock).mp (mem_filter.mp hx).1
    · intro job hj
      refine ⟨hj, fun hx => ?_⟩
      exact hcond.2.2 job hj (of_decide_eq_true (mem_filter.mp hx).2)
  | abort xs =>
    obtain ⟨hcond, hs⟩ := ite_none_right_eq_some.mp hs
    cases hs
    refine h.finish hcond (.inr rfl) ?_
    intro job hj
    obtain ⟨hj, hx⟩ := Option.filter_eq_some_iff.mp hj
    exact ⟨hj, of_decide_eq_true hx⟩
  | reserve x rowCount =>
    obtain ⟨hx, hs⟩ := ite_none_right_eq_some.mp hs
    cases hs
    exact h.reserve hx rowCount
  | flushRowGroup x n firstRowNumber rows =>
    obtain ⟨hcond, hs⟩ := ite_none_right_eq_some.mp hs
    cases hs
    exact h.flushRowGroup hcond.2 firstRowNumber rows
  | delete x n k =>
    obtain ⟨_, hs⟩ := ite_none_right_eq_some.mp hs
    cases hs
    exact h.setGroups (ledger_delete x n k)
  | retire x numbers =>
    obtain ⟨_, hs⟩ := ite_none_right_eq_some.mp hs
    cases hs
    exact h.setGroups (ledger_retire x numbers)
  | recluster x curve key =>
    obtain ⟨hcond, hs⟩ := ite_none_right_eq_some.mp hs
    exact h.reclusterBegin (allowed_iff.mp hcond.1).1 (Option.isNone_iff_eq_none.mp hcond.2.2) hs
  | rewrite x order rows sorted natts limit projections =>
    obtain ⟨hcond, hs⟩ := ite_none_right_eq_some.mp hs
    cases hs
    exact h.rewrite (allowed_iff.mp hcond.1).1 hcond.2.2.2.1 hcond.2.2.2.2
  | jobRead sorted w | jobWrite | jobReserve p rowCount | jobFinish =>
    obtain ⟨job, hj, hs⟩ := bind_eq_some_iff.mp hs
    exact h.stepJob hj hs

theorem Inv.run {acts : List (Action α)} (h : Run.run (Sorted.step le) State.init acts = some s) :
    Inv le s :=
  Run.run_invariant (fun _ _ _ hs hstep => Inv.step hs hstep) Inv.init h

/-! ## What the gates report -/

omit [DecidableEq α]

/-- In the order of their numbers, the groups were written by one rewrite and hold rows in
order. -/
structure OneRun (le : α → α → Bool) (gs : List (Group α)) : Prop where
  job : ∃ j, ∀ g ∈ gs, g.job = some j
  numbers : gs.Pairwise fun g g' => g.groupNumber < g'.groupNumber
  rows : (gs.flatMap (·.rows)).Pairwise fun a b => le a b = true

variable {m : Mark}

theorem Inv.job_of_range (h : Inv le s) (hm : m ∈ s.marks)
    (hg : g ∈ s.groups) (hfrom : m.sortedFrom ≤ g.groupNumber)
    (hthrough : g.groupNumber ≤ m.sortedThrough) : g.job = some m.job :=
  h.ledger.written g.piece (mem_map_of_mem hg) m.job ((h.marks m hm).range _ hfrom hthrough)

theorem ledger_ofJob (j : ℕ) :
    s.ledger.ofJob j = (s.groups.filter fun g => decide (g.job = some j)).map Group.piece := by
  rw [Ledger.ofJob, State.ledger, filter_map]
  rfl

variable {gs : List (Group α)}

/-- Groups of a rewrite that recorded a run, in the order in which they were written. -/
theorem Marked.oneRun (h : Marked le s.ledger s.jobs m)
    (hsub : gs.Sublist s.groups) (hjob : ∀ g ∈ gs, g.job = some m.job) :
    OneRun (le m.order) gs := by
  have hfilter : gs.Sublist (s.groups.filter fun g => decide (g.job = some m.job)) := by
    have hself : (gs.filter fun g => decide (g.job = some m.job)) = gs :=
      filter_eq_self.mpr fun g hg => decide_eq_true (hjob g hg)
    rw [← hself]
    exact hsub.filter _
  have hrun := h.run
  rw [ledger_ofJob] at hrun
  refine ⟨⟨m.job, hjob⟩, ?_, ?_⟩
  · exact (pairwise_map.mp hrun.numbers).sublist hfilter
  · have hrows := hrun.rows
    rw [flatMap_map] at hrows
    exact hrows.sublist (hfilter.flatMap _)

theorem mem_marks_of_sortedInfo (hm : s.sortedInfo x = some m) : m ∈ s.marks :=
  mem_reverse.mp (mem_of_find?_eq_some hm)

/-- The groups that `x` lists all lie in the run it reads. -/
theorem Inv.oneRun (h : Inv le s) (hm : s.sortedInfo x = some m) (hall : ∀ g ∈ s.readRowGroupList x,
      m.sortedFrom ≤ g.groupNumber ∧ g.groupNumber ≤ m.sortedThrough) :
    OneRun (le m.order) (s.readRowGroupList x) := by
  have hmem := mem_marks_of_sortedInfo hm
  have hvis : OneRun (le m.order) (s.groups.filter (Group.visible (s.self x))) := by
    refine (h.marks m hmem).oneRun filter_sublist ?_
    intro g hg
    have hin := hall g (mem_readRowGroupList.mpr (mem_filter.mp hg))
    exact h.job_of_range hmem (mem_filter.mp hg).1 hin.1 hin.2
  have hsorted : s.readRowGroupList x = s.groups.filter (Group.visible (s.self x)) := by
    refine List.Pairwise.insertionSort_eq (hvis.numbers.imp ?_)
    intro g g' hlt
    exact le_of_lt hlt
  rw [hsorted]
  exact hvis

theorem insertionSort_pairwise (gs : List (Group α)) :
    (gs.insertionSort fun a b => a.groupNumber ≤ b.groupNumber).Pairwise
      fun g g' => g.groupNumber ≤ g'.groupNumber := by
  have : Std.Total fun a b : Group α => a.groupNumber ≤ b.groupNumber :=
    ⟨fun a b => le_total a.groupNumber b.groupNumber⟩
  have : IsTrans (Group α) fun a b => a.groupNumber ≤ b.groupNumber :=
    ⟨fun _ _ _ => le_trans⟩
  exact pairwise_insertionSort _ _

/-- The groups lie between the first and the last. -/
theorem between_of_pairwise {first last : Group α}
    (hsorted : gs.Pairwise fun g g' => g.groupNumber ≤ g'.groupNumber)
    (hfirst : gs.head? = some first) (hlast : gs.getLast? = some last) (hg : g ∈ gs) :
    first.groupNumber ≤ g.groupNumber ∧ g.groupNumber ≤ last.groupNumber := by
  constructor
  · cases gs with
    | nil => cases hfirst
    | cons a gs =>
      cases hfirst
      rcases mem_cons.mp hg with rfl | hg
      · exact le_refl _
      · exact (pairwise_cons.mp hsorted).1 g hg
  · obtain ⟨front, rfl⟩ := getLast?_eq_some_iff.mp hlast
    rcases mem_append.mp hg with hg | hg
    · exact (pairwise_append.mp hsorted).2.2 g hg last (mem_singleton.mpr rfl)
    · rw [mem_singleton.mp hg]

theorem Inv.selfGate (h : Inv le s) (hgate : s.selfGate x order = true) :
    OneRun (le order) (s.readRowGroupList x) := by
  unfold State.selfGate Sorted.selfGate at hgate
  split at hgate
  · next m first last hm hfirst hlast =>
    simp only [Bool.and_eq_true, decide_eq_true_eq] at hgate
    obtain ⟨⟨rfl, hlow⟩, hhigh⟩ := hgate
    refine h.oneRun hm fun g hg => ?_
    have hbetween := between_of_pairwise (insertionSort_pairwise _) hfirst hlast hg
    exact ⟨le_trans hlow hbetween.1, le_trans hbetween.2 hhigh⟩
  · cases hgate

theorem Inv.vacuumSortedGate (h : Inv le s) {key : List String}
    (hgate : s.vacuumSortedGateIsNoop x key = true) :
    OneRun (le ⟨.lexicographic, key⟩) (s.readRowGroupList x) := by
  unfold State.vacuumSortedGateIsNoop at hgate
  split at hgate
  · cases hgate
  · next m hm =>
    simp only [Bool.and_eq_true, decide_eq_true_eq, all_eq_true] at hgate
    obtain ⟨⟨horder, _⟩, hall⟩ := hgate
    rw [← horder]
    exact h.oneRun hm fun g hg => ⟨(hall g hg).1.1.1, (hall g hg).1.1.2⟩

/-- **The recorded run.**  After every run of writers and rewrites, a group whose number
lies in a range that was ever recorded was written by the rewrite that recorded it; and
when one of the gates reports that there is nothing to do, the visible groups are one run
in the order it was asked for. -/
theorem recorded_run [DecidableEq α] (le : Order → α → α → Bool) (acts : List (Action α))
    (s : State α) (h : Run.run (Sorted.step le) State.init acts = some s) :
    (∀ m ∈ s.marks, ∀ g ∈ s.groups, m.sortedFrom ≤ g.groupNumber →
      g.groupNumber ≤ m.sortedThrough → g.job = some m.job) ∧
    (∀ x order, s.selfGate x order = true → OneRun (le order) (s.readRowGroupList x)) ∧
    (∀ x key, s.vacuumSortedGateIsNoop x key = true →
      OneRun (le ⟨.lexicographic, key⟩) (s.readRowGroupList x)) := by
  have hinv := Inv.run h
  refine ⟨fun m hm g hg => hinv.job_of_range hm hg, ?_, ?_⟩
  · intro x order hgate
    exact hinv.selfGate hgate
  · intro x key hgate
    exact hinv.vacuumSortedGate hgate

/-- A recluster beside a writer that draws one id before it and one while it writes; a
projection of the recluster draws one too. -/
def busyRecluster : List (Action ℕ) :=
  [.begin, .reserve 0 1000, .flushRowGroup 0 1 1 [3, 1, 2], .commit 0,
    .begin, .recluster 1 .zorder ["a"],
    .begin, .reserve 2 1000,
    .jobRead [1, 2, 3] (newWriter 1 1 .least 1),
    .jobWrite, .jobReserve 0 1000, .reserve 2 1000, .jobWrite, .jobWrite, .jobFinish, .commit 1,
    .flushRowGroup 2 2 1001 [9], .begin]

theorem recorded_run_busyRecluster :
    ∃ s, Run.run (step fun _ a b => decide (a ≤ b)) State.init busyRecluster = some s ∧
      s.marks = [⟨3, 4, ⟨.curve .zorder, ["a"]⟩, 1, 0⟩] ∧
      s.selfGate 3 ⟨.curve .zorder, ["a"]⟩ = true ∧
      OneRun (fun a b => decide (a ≤ b)) (s.readRowGroupList 3) := by
  have hrun : (Run.run (step fun _ a b => decide (a ≤ b)) State.init busyRecluster).map
      (fun s => (s.marks, s.selfGate 3 ⟨.curve .zorder, ["a"]⟩)) =
        some ([⟨3, 4, ⟨.curve .zorder, ["a"]⟩, 1, 0⟩], true) := by
    decide +kernel
  obtain ⟨s, hs, hmarks⟩ := Option.map_eq_some_iff.mp hrun
  obtain ⟨hmarks, hgate⟩ := Prod.mk.inj hmarks
  exact ⟨s, hs, hmarks, hgate, (recorded_run _ busyRecluster s hs).2.1 3 _ hgate⟩

end PgColumnar.Sorted
