import Mathlib.Algebra.Order.Ring.Nat
import Mathlib.Order.Lattice.Nat
import PgColumnar.Export.Dispatch

/-!
# The completion marker of a parallel export

The ranges of a plan follow one another, so the parts of a run hold what its snapshot shows.
A run that finds no marker leaves none until its end; by then all its workers are done, so each
of its parts is there, and the reconcile has deleted the parts behind them.

## Main definitions

* `WorkerInv`, `PhaseInv`, `Inv` — what is at the destination at each statement.

## Main results

* `contents_flatten` — the parts hold the visible row groups, each once.
* `markerTrue_of_run` — the marker tells the truth in a run of benign steps.
-/

namespace PgColumnar.Export

open Run List Option Nat

/-! ### The ranges -/

namespace Plan

variable {p : Plan}

theorem startIdx_eq (p : Plan) (i : ℕ) :
    p.startIdx i = i * (p.target.ntasks / p.workers) + min i (p.target.ntasks % p.workers) := by
  induction i with
  | zero => simp [startIdx]
  | succ i ih =>
    rw [startIdx, ih, take, succ_mul]
    split <;> omega

/-- The last range ends with the last task. -/
theorem startIdx_workers (hpos : 0 < p.workers) : p.startIdx p.workers = p.target.ntasks := by
  have hmod := mod_lt p.target.ntasks hpos
  rw [startIdx_eq, min_eq_right hmod.le, div_add_mod]

theorem startIdx_mono (p : Plan) {i j : ℕ} (h : i ≤ j) : p.startIdx i ≤ p.startIdx j := by
  induction h with
  | refl => exact le_rfl
  | step _ ih => exact ih.trans (le_add_right _ _)

theorem firstKey_le_endKey (p : Plan) (w : ℕ) : p.firstKey w ≤ p.endKey w := by
  unfold firstKey endKey
  split
  · exact le_succ w
  · exact le_add_right _ _

theorem endKey_le_nkeys (hpos : 0 < p.workers) {w : ℕ} (hw : w < p.workers) :
    p.endKey w ≤ p.nkeys := by
  unfold endKey nkeys
  split
  · exact hw
  · next leaves hp =>
    have hall := startIdx_workers hpos
    rw [hp] at hall
    exact (p.startIdx_mono hw).trans hall.le

/-- Every part has a worker. -/
theorem exists_worker (hpos : 0 < p.workers) {k : ℕ} (hk : k < p.nkeys) :
    ∃ w < p.workers, p.firstKey w ≤ k ∧ k < p.endKey w := by
  unfold firstKey endKey
  unfold nkeys at hk
  split
  · next groups hp =>
    rw [hp] at hk
    exact ⟨k, hk, le_rfl, lt_succ_self k⟩
  · next leaves hp =>
    rw [hp] at hk
    have hall := startIdx_workers hpos
    rw [hp] at hall
    replace hk : k < p.startIdx p.workers := by rwa [hall]
    -- the first range that ends behind the part
    have hex : ∃ w, k < p.startIdx (w + 1) := by
      refine ⟨p.workers, ?_⟩
      exact hk.trans_le (le_add_right _ _)
    refine ⟨Nat.find hex, ?_, ?_, Nat.find_spec hex⟩
    · obtain ⟨w, hw⟩ := exists_eq_succ_of_ne_zero hpos.ne'
      have hle : Nat.find hex ≤ w := Nat.find_min' hex (by rwa [hw] at hk)
      omega
    · cases hfind : Nat.find hex with
      | zero => exact zero_le k
      | succ w =>
        have hmin := Nat.find_min hex (m := w) (by omega)
        exact not_lt.mp hmin

theorem length_contents (p : Plan) : p.contents.length = p.nkeys := by
  unfold contents nkeys
  split <;> simp

/-- Ranges that follow one another take a prefix. -/
theorem flatten_ranges (p : Plan) (l : List ℕ) (k : ℕ) :
    ((List.range k).map (p.slice l)).flatten = l.take (p.startIdx k) := by
  induction k with
  | zero => simp [startIdx]
  | succ k ih =>
    rw [range_succ, map_append, flatten_append, ih, startIdx, take_add]
    simp [slice]

/-- **The parts hold the visible row groups**, in order and each once. -/
theorem contents_flatten (hpos : 0 < p.workers) (h : p.Unchanged) :
    p.contents.flatten = p.target.visible := by
  have hall := startIdx_workers hpos
  obtain ⟨target, workers⟩ := p
  cases target with
  | table visible imported =>
    show ((List.range workers).map _).flatten = visible
    have hslices : (List.range workers).map
      (fun i => slice ⟨.table visible imported, workers⟩ (imported.getD i []) i) =
        (List.range workers).map (slice ⟨.table visible imported, workers⟩ visible) :=
      map_congr_left fun i hi => h i (mem_range.mp hi)
    rw [hslices, flatten_ranges, hall]
    exact take_length
  | partitioned leaves =>
    show (leaves.map Leaf.imported).flatten = leaves.flatMap Leaf.visible
    rw [map_congr_left h, flatMap_def]

theorem workers_make {target : Target} {requested : ℕ} (h : 1 ≤ requested) :
    0 < (Plan.make target requested).workers := by
  unfold make maxWorkers
  simp only
  omega

end Plan

/-! ### The invariant -/

/-- A worker is within its parts, and has published all of them when it is done. -/
structure WorkerInv (p : Plan) (w : ℕ) (worker : Worker) : Prop where
  first : p.firstKey w ≤ worker.next
  bound : worker.next ≤ p.endKey w
  done : worker.slot = .done → worker.next = p.endKey w

variable {remote : Bool} {s s' : State}

/-- What the workers of run `r` have published is there. -/
def Published (parts : AList fun _ : ℕ => Part) (r : ℕ) (j : Job) : Prop :=
  ∀ w < j.plan.workers, ∀ k, j.plan.firstKey w ≤ k → k < (j.workers w).next →
    parts.lookup k = some (j.part r k)

/-- All parts of run `r` are there. -/
def Complete (parts : AList fun _ : ℕ => Part) (r : ℕ) (j : Job) : Prop :=
  ∀ k < j.plan.nkeys, parts.lookup k = some (j.part r k)

/-- What is at the destination in run `r`, by where the function is. -/
def PhaseInv (parts : AList fun _ : ℕ => Part) (r : ℕ) (j : Job) : Phase → Prop
  | .ready | .cleanup _ => True
  | .registering _ | .waiting => Published parts r j
  | .listing => Complete parts r j
  | .reconciling todo =>
    Complete parts r j ∧ (∀ k ∈ todo, j.plan.nkeys ≤ k) ∧
      ∀ k part, parts.lookup k = some part → j.plan.nkeys ≤ k → k ∈ todo
  | .marking => Complete parts r j ∧ ∀ k, j.plan.nkeys ≤ k → parts.lookup k = none
  | .removing _ todo => ∀ k part, parts.lookup k = some part → part.run = r → k ∈ todo

/-- What holds while a run is going on. -/
structure Running (remote : Bool) (s : State) : Prop where
  workers : 0 < s.job.plan.workers
  whole : s.job.plan.contents.flatten = s.job.plan.target.visible
  bounds : ∀ w, WorkerInv s.job.plan w (s.job.workers w)
  own : remote = false → ∀ k part, s.parts.lookup k = some part → part.run = s.cur

structure Inv (remote : Bool) (s : State) : Prop where
  owner : ∀ k part, s.parts.lookup k = some part →
    part.run < s.cur ∨ part.run = s.cur ∧ s.phase ≠ .ready ∧ k < s.job.plan.nkeys
  future : ∀ r, s.cur ≤ r → (s.jobs r).outcome = .running
  failed : ∀ r, (s.jobs r).outcome.isFailed = true →
    ∀ k part, s.parts.lookup k = some part → part.run ≠ r
  marker : s.marker = true → s.phase = .ready ∧ ∃ r, s.cur = r + 1 ∧ Certifies s r
  running : s.phase ≠ .ready → Running remote s
  phase : PhaseInv s.parts s.cur s.job s.phase

theorem inv_start : Inv remote State.start where
  owner k part h := by
    rw [State.start, AList.lookup_empty] at h
    cases h
  future _ _ := rfl
  failed _ h := by cases h
  marker h := by cases h
  running h := absurd rfl h
  phase := trivial

theorem Inv.markerTrue (h : Inv remote s) : MarkerTrue s where
  present hmarker := by
    obtain ⟨-, r, -, hr⟩ := h.marker hmarker
    exact ⟨r, hr⟩
  noParts := h.failed
  noMarker r hfailed hcur := by
    by_contra hmarker
    obtain ⟨-, r', hcur', hr'⟩ := h.marker (by simpa using hmarker)
    obtain rfl : r = r' := by omega
    have hdone := hr'.completed
    cases hout : (s.jobs r).outcome with
    | running | completed total =>
      rw [hout] at hfailed
      cases hfailed
    | failed worker =>
      rw [hout] at hdone
      cases hdone

/-- There is no marker while a run is going on. -/
theorem Inv.noMarker (h : Inv remote s) (hphase : s.phase ≠ .ready) : s.marker = false := by
  by_contra hmarker
  exact hphase (h.marker (by simpa using hmarker)).1

variable {parts : AList fun _ : ℕ => Part}

/-- The run moves on, and parts may go. -/
theorem Inv.advance (h : Inv remote s) (hphase : s.phase ≠ .ready) {phase : Phase}
    (hphase' : phase ≠ .ready)
    (hsub : ∀ k part, parts.lookup k = some part → s.parts.lookup k = some part)
    (hinv : PhaseInv parts s.cur s.job phase) :
    Inv remote { s with parts := parts, phase := phase } where
  owner k part hk := by
    refine (h.owner k part (hsub k part hk)).imp_right fun hown => ?_
    exact ⟨hown.1, hphase', hown.2.2⟩
  future := h.future
  failed r hr k part hk := h.failed r hr k part (hsub k part hk)
  marker hmarker := by
    have hno := h.noMarker hphase
    rw [show s.marker = true from hmarker] at hno
    cases hno
  running _ := by
    have hrun := h.running hphase
    exact ⟨hrun.workers, hrun.whole, hrun.bounds,
      fun hlocal k part hk => hrun.own hlocal k part (hsub k part hk)⟩
  phase := hinv

theorem lookup_of_lookup_erase {a k : ℕ} {part : Part}
    (h : (parts.erase a).lookup k = some part) : k ≠ a ∧ parts.lookup k = some part := by
  have hne : k ≠ a := by
    intro heq
    rw [heq, AList.lookup_erase] at h
    cases h
  rw [AList.lookup_erase_ne hne] at h
  exact ⟨hne, h⟩

/-! ### Workers -/

theorem setJob_jobs (s : State) (r r' : ℕ) (j : Job) :
    (s.setJob r j).jobs r' = if r' = r then j else s.jobs r' := Function.update_apply ..

theorem setWorker_workers (j : Job) (w w' : ℕ) (worker : Worker) :
    (j.setWorker w worker).workers w' = if w' = w then worker else j.workers w' :=
  Function.update_apply ..

/-- A step of a worker changes neither the plan of its run nor the outcome. -/
theorem setWorker_fixed (s : State) (r w : ℕ) (worker : Worker) (r' : ℕ) :
    ((s.setJob r ((s.jobs r).setWorker w worker)).jobs r').plan = (s.jobs r').plan ∧
      ((s.setJob r ((s.jobs r).setWorker w worker)).jobs r').outcome = (s.jobs r').outcome := by
  rw [setJob_jobs]
  split
  · next heq =>
    subst heq
    exact ⟨rfl, rfl⟩
  · exact ⟨rfl, rfl⟩

/-- A worker of the run after a worker, of this or another run, has taken a step. -/
theorem setWorker_job (s : State) (r w : ℕ) (worker : Worker) (w' : ℕ) :
    (s.setJob r ((s.jobs r).setWorker w worker)).job.workers w' =
      if s.cur = r ∧ w' = w then worker else s.job.workers w' := by
  show ((s.setJob r ((s.jobs r).setWorker w worker)).jobs s.cur).workers w' = _
  rw [setJob_jobs]
  by_cases heq : s.cur = r
  · rw [if_pos heq, setWorker_workers]
    simp [heq, State.job]
  · simp [heq, State.job]

variable {r : ℕ}

theorem Certifies.setWorker (h : Certifies s r) (r' w : ℕ) (worker : Worker) :
    Certifies (s.setJob r' ((s.jobs r').setWorker w worker)) r := by
  obtain ⟨hplan, hout⟩ := setWorker_fixed s r' w worker r
  refine ⟨?_, ?_, ?_⟩
  · rw [hout]
    exact h.completed
  · rw [hplan]
    exact h.parts
  · rw [hplan]
    exact h.whole

variable {w : ℕ} {worker : Worker}

/-- A worker changed within its parts, and parts of its run that may have come. -/
theorem Inv.setWorker (h : Inv remote s)
    (hw : s.phase ≠ .ready → r = s.cur → WorkerInv s.job.plan w worker)
    (hparts : parts = s.parts ∨ s.phase ≠ .ready ∧ ∃ k < s.job.plan.nkeys,
      parts = s.parts.insert k (s.job.part s.cur k))
    (hphase : PhaseInv parts s.cur (s.setJob r ((s.jobs r).setWorker w worker)).job s.phase) :
    Inv remote { s.setJob r ((s.jobs r).setWorker w worker) with parts := parts } := by
  have hfixed := setWorker_fixed s r w worker
  have hplan : (s.setJob r ((s.jobs r).setWorker w worker)).job.plan = s.job.plan :=
    (hfixed s.cur).1
  -- a part that is there was there, or is of the run that is going on
  have hnew : ∀ k part, parts.lookup k = some part → s.parts.lookup k = some part ∨
      part.run = s.cur ∧ s.phase ≠ .ready ∧ k < s.job.plan.nkeys := by
    intro k part hk
    rcases hparts with rfl | ⟨hrun, k', hk', rfl⟩
    · exact .inl hk
    · by_cases heq : k = k'
      · subst heq
        rw [AList.lookup_insert] at hk
        cases hk
        exact .inr ⟨rfl, hrun, hk'⟩
      · rw [AList.lookup_insert_ne heq] at hk
        exact .inl hk
  refine ⟨?_, ?_, ?_, ?_, ?_, hphase⟩
  · intro k part hk
    show _ ∨ _ ∧ _ ∧ k < (s.setJob r ((s.jobs r).setWorker w worker)).job.plan.nkeys
    rw [hplan]
    exact (hnew k part hk).elim (h.owner k part) .inr
  · intro r' hr'
    exact (hfixed r').2.trans (h.future r' hr')
  · intro r' hr' k part hk
    replace hr' : (s.jobs r').outcome.isFailed = true := by rwa [← (hfixed r').2]
    rcases hnew k part hk with hold | ⟨hrun, -, -⟩
    · exact h.failed r' hr' k part hold
    · -- the run that is going on has not failed
      intro heq
      rw [← heq, hrun, h.future s.cur le_rfl] at hr'
      cases hr'
  · intro hmarker
    obtain ⟨hready, r', hcur, hr'⟩ := h.marker hmarker
    rcases hparts with rfl | ⟨hrun, -⟩
    · exact ⟨hready, r', hcur, hr'.setWorker r w worker⟩
    · exact absurd hready hrun
  · intro hne
    have hrun := h.running hne
    refine ⟨?_, ?_, ?_, ?_⟩
    · show 0 < (s.setJob r ((s.jobs r).setWorker w worker)).job.plan.workers
      rw [hplan]
      exact hrun.workers
    · show (s.setJob r ((s.jobs r).setWorker w worker)).job.plan.contents.flatten =
        (s.setJob r ((s.jobs r).setWorker w worker)).job.plan.target.visible
      rw [hplan]
      exact hrun.whole
    · intro w'
      show WorkerInv (s.setJob r ((s.jobs r).setWorker w worker)).job.plan w'
        ((s.setJob r ((s.jobs r).setWorker w worker)).job.workers w')
      rw [hplan, setWorker_job]
      split
      · next heq =>
        rw [heq.2]
        exact hw hne heq.1.symm
      · exact hrun.bounds w'
    · intro hlocal k part hk
      exact (hnew k part hk).elim (hrun.own hlocal k part) And.left

/-- What is at the destination does not depend on a worker that publishes nothing. -/
theorem phaseInv_setWorker {phase : Phase} (h : PhaseInv s.parts s.cur s.job phase)
    (hnext : worker.next = ((s.jobs r).workers w).next) :
    PhaseInv s.parts s.cur (s.setJob r ((s.jobs r).setWorker w worker)).job phase := by
  have hplan : (s.setJob r ((s.jobs r).setWorker w worker)).job.plan = s.job.plan :=
    (setWorker_fixed s r w worker s.cur).1
  have hpart : (s.setJob r ((s.jobs r).setWorker w worker)).job.part = s.job.part := by
    unfold Job.part
    rw [hplan]
  have hnext' : ∀ w', ((s.setJob r ((s.jobs r).setWorker w worker)).job.workers w').next =
      (s.job.workers w').next := by
    intro w'
    rw [setWorker_job]
    split
    · next heq =>
      rw [hnext, heq.2, ← heq.1]
      rfl
    · rfl
  have hpublished : Published s.parts s.cur s.job →
      Published s.parts s.cur (s.setJob r ((s.jobs r).setWorker w worker)).job := by
    unfold Published
    rw [hplan, hpart]
    intro h w' hw' k hk hk'
    exact h w' hw' k hk (by rwa [hnext'] at hk')
  revert h
  cases phase with
  | ready | cleanup _ | removing worker todo => exact id
  | registering i | waiting => exact hpublished
  | listing | reconciling todo | marking =>
    unfold PhaseInv Complete
    rw [hplan, hpart]
    exact id

/-- **A worker publishes its next part.** -/
theorem inv_publish (h : Inv remote s) (hw : w < s.job.plan.workers)
    (hslot : (s.job.workers w).slot = .pending)
    (hnext : (s.job.workers w).next < s.job.plan.endKey w)
    (hspares : s.phase.spares (s.job.workers w).next) :
    Inv remote { s.setJob s.cur
        (s.job.setWorker w { s.job.workers w with next := (s.job.workers w).next + 1 }) with
      parts := s.parts.insert (s.job.workers w).next
        (s.job.part s.cur (s.job.workers w).next) } := by
  have hphase : s.phase ≠ .ready := by
    intro heq
    rw [heq] at hspares
    exact hspares
  have hrun := h.running hphase
  have hkey := hnext.trans_le (Plan.endKey_le_nkeys hrun.workers hw)
  have hbounds := hrun.bounds w
  generalize hk : (s.job.workers w).next = k at hnext hspares hkey hbounds ⊢
  have hworker : WorkerInv s.job.plan w { s.job.workers w with next := k + 1 } := by
    refine ⟨?_, hnext, fun hdone => ?_⟩
    · exact hbounds.first.trans (by rw [hk]; exact le_succ k)
    · rw [show (s.job.workers w).slot = .done from hdone] at hslot
      cases hslot
  refine h.setWorker (fun _ _ => hworker) (.inr ⟨hphase, k, hkey, rfl⟩) ?_
  -- whatever was published is there, or is the part that now comes
  have hpublished : Published s.parts s.cur s.job →
      Published (s.parts.insert k (s.job.part s.cur k)) s.cur
        (s.setJob s.cur (s.job.setWorker w { s.job.workers w with next := k + 1 })).job := by
    intro hold w' hw' k' hfirst hlt
    replace hlt : k' < (if s.cur = s.cur ∧ w' = w then
        { s.job.workers w with next := k + 1 } else s.job.workers w').next := by
      rwa [← setWorker_job]
    have hplan : (s.setJob s.cur
      (s.job.setWorker w { s.job.workers w with next := k + 1 })).job.plan
        = s.job.plan := (setWorker_fixed s s.cur w _ s.cur).1
    unfold Job.part
    rw [hplan] at hw' hfirst ⊢
    by_cases heq : k' = k
    · subst heq
      exact AList.lookup_insert _
    · rw [AList.lookup_insert_ne heq]
      refine hold w' hw' k' hfirst ?_
      split at hlt
      · next hww =>
        rw [hww.2, hk]
        exact lt_of_le_of_ne (Nat.lt_succ_iff.mp hlt) heq
      · exact hlt
  have hold := h.phase
  revert hold hspares
  cases s.phase with
  | registering i | waiting => exact fun _ => hpublished
  | cleanup worker => exact fun _ _ => trivial
  | removing worker todo =>
    intro hspares hold k' part hk' hcur
    by_cases heq : k' = k
    · rw [heq]
      exact hspares
    · rw [AList.lookup_insert_ne heq] at hk'
      exact hold k' part hk' hcur
  | ready | listing | reconciling todo | marking => exact fun hspares => absurd hspares id

theorem inv_worker (h : Inv remote s) {event : WorkerEvent}
    (hok : Benign s (.worker r w event)) (hstep : workerStep s r w event = some s') :
    Inv remote s' := by
  unfold workerStep at hstep
  simp only [ite_none_right_eq_some] at hstep
  obtain ⟨⟨hw, -, -⟩, hstep⟩ := hstep
  -- in the run that is going on a worker is within its parts
  have hbounds : s.phase ≠ .ready → r = s.cur → WorkerInv s.job.plan w ((s.jobs r).workers w) := by
    intro hphase hr
    subst hr
    exact (h.running hphase).bounds w
  cases event with
  | publish =>
    simp only [ite_none_right_eq_some, Option.some.injEq] at hstep
    obtain ⟨⟨hslot, hnext⟩, rfl⟩ := hstep
    obtain ⟨rfl, hspares⟩ := hok
    exact inv_publish h hw hslot hnext hspares
  | finish rows =>
    simp only [ite_none_right_eq_some, Option.some.injEq] at hstep
    obtain ⟨⟨hslot, hnext⟩, rfl⟩ := hstep
    refine h.setWorker (fun _ hr => ?_) (.inl rfl) (phaseInv_setWorker h.phase rfl)
    subst hr
    exact ⟨by rw [hnext]; exact Plan.firstKey_le_endKey _ w, hnext.le, fun _ => hnext⟩
  | fail =>
    simp only [ite_none_right_eq_some, Option.some.injEq] at hstep
    obtain ⟨hslot, rfl⟩ := hstep
    refine h.setWorker (fun hphase hr => ?_) (.inl rfl) (phaseInv_setWorker h.phase rfl)
    have hold := hbounds hphase hr
    exact ⟨hold.first, hold.bound, nofun⟩
  | exit =>
    simp only [Option.some.injEq] at hstep
    subst hstep
    refine h.setWorker (fun hphase hr => ?_) (.inl rfl) (phaseInv_setWorker h.phase rfl)
    have hold := hbounds hphase hr
    exact ⟨hold.first, hold.bound, hold.done⟩

/-! ### The function -/

theorem firstNotDone_eq_none {j : Job} (h : j.firstNotDone = none) :
    ∀ w < j.plan.workers, (j.workers w).slot = .done := by
  unfold Job.firstNotDone at h
  rw [find?_eq_none] at h
  intro w hw
  simpa using h w (mem_range.mpr hw)

/-- When every worker is done every part is there. -/
theorem complete_of_done (hrun : Running remote s) (h : Published s.parts s.cur s.job)
    (hdone : ∀ w < s.job.plan.workers, (s.job.workers w).slot = .done) :
    Complete s.parts s.cur s.job := by
  intro k hk
  obtain ⟨w, hw, hfirst, hend⟩ := Plan.exists_worker hrun.workers hk
  refine h w hw k hfirst ?_
  rwa [(hrun.bounds w).done (hdone w hw)]

/-- The run ends. -/
theorem Inv.finish (h : Inv remote s) {outcome : Outcome} {marker : Bool} (hmarker : marker = true →
      Certifies { s.finish outcome with marker := marker } s.cur)
    (hfailed : outcome.isFailed = true →
      ∀ k part, s.parts.lookup k = some part → part.run ≠ s.cur) :
    Inv remote { s.finish outcome with marker := marker } := by
  have hjobs : ∀ r, (s.finish outcome).jobs r =
      if r = s.cur then { s.job with outcome := outcome } else s.jobs r :=
    fun r => setJob_jobs s s.cur r _
  refine ⟨?_, ?_, ?_, ?_, fun hne => absurd rfl hne, trivial⟩
  · intro k part hk
    refine .inl (Nat.lt_succ_iff.mpr ?_)
    rcases h.owner k part hk with hlt | ⟨heq, -⟩
    · exact hlt.le
    · exact heq.le
  · intro r hr
    have hne : r ≠ s.cur := by
      intro heq
      rw [heq] at hr
      exact not_succ_le_self _ hr
    show ((s.finish outcome).jobs r).outcome = .running
    rw [hjobs, if_neg hne]
    exact h.future r ((le_succ _).trans hr)
  · intro r hr k part hk
    replace hr : ((s.finish outcome).jobs r).outcome.isFailed = true := hr
    rw [hjobs] at hr
    split at hr
    · next heq =>
      rw [heq]
      exact hfailed hr k part hk
    · exact h.failed r hr k part hk
  · intro htrue
    exact ⟨rfl, s.cur, rfl, hmarker htrue⟩

/-- **The marker is written** when all parts are there and no others. -/
theorem inv_mark (h : Inv remote s) (hphase : s.phase = .marking) :
    Inv remote { s.finish (.completed s.job.totalRows) with marker := true } := by
  have hne : s.phase ≠ .ready := by simp [hphase]
  have hrun := h.running hne
  have hparts := h.phase
  rw [hphase] at hparts
  obtain ⟨hcomplete, hothers⟩ := hparts
  refine h.finish (fun _ => ?_) nofun
  have hjob : (s.finish (.completed s.job.totalRows)).jobs s.cur =
      { s.job with outcome := .completed s.job.totalRows } := by
    show (s.setJob s.cur _).jobs s.cur = _
    rw [setJob_jobs, if_pos rfl]
  refine ⟨?_, ?_, ?_⟩
  · show ((s.finish _).jobs s.cur).outcome.isCompleted = true
    rw [hjob]
    rfl
  · intro k
    show s.parts.lookup k = ((s.finish _).jobs s.cur).plan.contents[k]?.map (Part.mk s.cur)
    rw [hjob]
    show s.parts.lookup k = s.job.plan.contents[k]?.map (Part.mk s.cur)
    by_cases hk : k < s.job.plan.nkeys
    · have hlen : k < s.job.plan.contents.length := by rwa [Plan.length_contents]
      rw [hcomplete k hk, getElem?_eq_getElem hlen]
      unfold Job.part
      simp [hlen]
    · rw [hothers k (not_lt.mp hk), getElem?_eq_none]
      · rfl
      · rw [Plan.length_contents]
        exact not_lt.mp hk
  · show ((s.finish _).jobs s.cur).plan.contents.flatten =
      ((s.finish _).jobs s.cur).plan.target.visible
    rw [hjob]
    exact hrun.whole

/-- **The next statement of the function.** -/
theorem inv_next (h : Inv remote s) (hstep : next remote s = some s') : Inv remote s' := by
  have hparts := h.phase
  unfold next at hstep
  cases hs : s.phase with
  | ready | listing | cleanup worker =>
    simp only [hs] at hstep
    cases hstep
  | registering i =>
    simp only [hs] at hstep hparts
    have hne : s.phase ≠ .ready := by simp [hs]
    split at hstep
    · cases hstep
      have hworker : WorkerInv s.job.plan i { s.job.workers i with registered := true } := by
        have hold := (h.running hne).bounds i
        exact ⟨hold.first, hold.bound, hold.done⟩
      have hreg := h.setWorker (r := s.cur) (fun _ _ => hworker) (.inl rfl)
        (phaseInv_setWorker h.phase rfl)
      -- the worker registered has published nothing by it
      have hpub : PhaseInv s.parts s.cur s.job (.registering (i + 1)) := hparts
      exact hreg.advance hne nofun (fun _ _ => id) (phaseInv_setWorker hpub rfl)
    · cases hstep
      exact h.advance hne nofun (fun _ _ => id) hparts
  | waiting =>
    simp only [hs] at hstep hparts
    have hne : s.phase ≠ .ready := by simp [hs]
    have hrun := h.running hne
    obtain ⟨_, hstep⟩ := ite_none_right_eq_some.mp hstep
    split at hstep
    · cases hstep
      exact h.advance hne nofun (fun _ _ => id) trivial
    · next hdone =>
      have hcomplete := complete_of_done hrun hparts (firstNotDone_eq_none hdone)
      cases remote with
      | true =>
        cases hstep
        exact h.advance hne nofun (fun _ _ => id) hcomplete
      | false =>
        -- in a directory there is nothing but the parts of this run
        cases hstep
        refine h.advance hne nofun (fun _ _ => id) ⟨hcomplete, fun k hk => ?_⟩
        cases hlook : s.parts.lookup k with
        | none => rfl
        | some part =>
          have howner := hrun.own rfl k part hlook
          rcases h.owner k part hlook with hlt | ⟨-, -, hlt⟩ <;> omega
  | reconciling todo =>
    have hne : s.phase ≠ .ready := by simp [hs]
    cases todo with
    | nil =>
      simp only [hs, Option.some.injEq] at hstep hparts
      subst hstep
      obtain ⟨hcomplete, -, hothers⟩ := hparts
      refine h.advance hne nofun (fun _ _ => id) ⟨hcomplete, fun k hk => ?_⟩
      cases hlook : s.parts.lookup k with
      | none => rfl
      | some part => exact absurd (hothers k part hlook hk) (not_mem_nil)
    | cons k todo =>
      simp only [hs, Option.some.injEq] at hstep hparts
      subst hstep
      obtain ⟨hcomplete, hstale, hothers⟩ := hparts
      refine h.advance hne nofun (fun _ _ hk' => (lookup_of_lookup_erase hk').2)
        ⟨fun k' hk' => ?_, fun k' hk' => hstale k' (mem_cons_of_mem _ hk'), ?_⟩
      · have hle := hstale k mem_cons_self
        rw [AList.lookup_erase_ne (by omega)]
        exact hcomplete k' hk'
      · intro k' part hk' hle
        obtain ⟨hnek, hlook⟩ := lookup_of_lookup_erase hk'
        exact (mem_cons.mp (hothers k' part hlook hle)).resolve_left hnek
  | marking =>
    simp only [hs, Option.some.injEq] at hstep
    subst hstep
    exact inv_mark h hs
  | removing worker todo =>
    have hne : s.phase ≠ .ready := by simp [hs]
    cases todo with
    | nil =>
      simp only [hs, Option.some.injEq] at hstep hparts
      subst hstep
      refine h.finish nofun fun _ k part hk hcur => ?_
      exact absurd (hparts k part hk hcur) not_mem_nil
    | cons k todo =>
      simp only [hs, Option.some.injEq] at hstep hparts
      subst hstep
      refine h.advance hne nofun (fun _ _ hk' => (lookup_of_lookup_erase hk').2) ?_
      intro k' part hk' hcur
      obtain ⟨hnek, hlook⟩ := lookup_of_lookup_erase hk'
      exact (mem_cons.mp (hparts k' part hlook hcur)).resolve_left hnek

/-- **A run starts** where there is no marker. -/
theorem inv_begin (h : Inv remote s) {target : Target} {requested : ℕ}
    (hphase : s.phase = .ready) (hstartable : startable remote s = true)
    (hrequested : 1 ≤ requested) (hmarker : s.marker = false)
    (hunchanged : (Plan.make target requested).Unchanged) :
    Inv remote { s.setJob s.cur (.fresh (Plan.make target requested)) with
      phase := .registering 0 } := by
  have hjob : (s.setJob s.cur (.fresh (Plan.make target requested))).job =
      .fresh (Plan.make target requested) := by
    show (s.setJob s.cur _).jobs s.cur = _
    rw [setJob_jobs, if_pos rfl]
  have hworkers : 0 < (Plan.make target requested).workers := Plan.workers_make hrequested
  refine ⟨?_, ?_, ?_, ?_, fun _ => ⟨?_, ?_, ?_, ?_⟩, ?_⟩
  · intro k part hk
    refine .inl ?_
    rcases h.owner k part hk with hlt | ⟨-, hne, -⟩
    · exact hlt
    · exact absurd hphase hne
  · intro r hr
    show ((s.setJob s.cur _).jobs r).outcome = .running
    rw [setJob_jobs]
    split
    · rfl
    · exact h.future r hr
  · intro r hr k part hk
    replace hr : ((s.setJob s.cur (.fresh (Plan.make target requested))).jobs r).outcome.isFailed
      = true := hr
    rw [setJob_jobs] at hr
    split at hr
    · cases hr
    · exact h.failed r hr k part hk
  · intro htrue
    rw [show s.marker = true from htrue] at hmarker
    cases hmarker
  · show 0 < (s.setJob s.cur _).job.plan.workers
    rw [hjob]
    exact hworkers
  · show (s.setJob s.cur _).job.plan.contents.flatten = (s.setJob s.cur _).job.plan.target.visible
    rw [hjob]
    exact Plan.contents_flatten hworkers hunchanged
  · intro w
    show WorkerInv (s.setJob s.cur _).job.plan w ((s.setJob s.cur _).job.workers w)
    rw [hjob]
    exact ⟨le_rfl, Plan.firstKey_le_endKey _ w, nofun⟩
  · intro hlocal k part hk
    -- a local directory is empty when a run starts
    subst hlocal
    unfold startable at hstartable
    simp only [Bool.false_or, Bool.and_eq_true, List.isEmpty_iff] at hstartable
    have hmem : k ∈ s.parts.keys := by
      rw [← AList.mem_keys, ← AList.lookup_isSome]
      rw [show s.parts.lookup k = some part from hk]
      rfl
    rw [hstartable.1] at hmem
    cases hmem
  · show Published s.parts s.cur (s.setJob s.cur _).job
    rw [hjob]
    intro w _ k hfirst hlt
    exact absurd hlt (not_lt.mpr hfirst)

/-! ### Runs -/

theorem inv_step (h : Inv remote s) (a : Action) (hok : Benign s a)
    (hstep : step remote s a = some s') : Inv remote s' := by
  have hparts := h.phase
  cases a with
  | start target requested =>
    simp only [step, ite_none_right_eq_some, Option.some.injEq] at hstep
    obtain ⟨⟨hphase, hstartable, hrequested, -⟩, rfl⟩ := hstep
    exact inv_begin h hphase hstartable hrequested hok.1 hok.2
  | worker r w event => exact inv_worker h hok hstep
  | next => exact inv_next h hstep
  | interrupt =>
    simp only [step] at hstep
    cases hs : s.phase with
    | registering i | waiting =>
      simp only [hs, Option.some.injEq] at hstep
      subst hstep
      exact h.advance (by simp [hs]) nofun (fun _ _ => id) trivial
    | _ => simp [hs] at hstep
  | list keys =>
    simp only [step, ite_none_right_eq_some, Option.some.injEq] at hstep
    obtain ⟨⟨hs, hperm⟩, rfl⟩ := hstep
    rw [hs] at hparts
    refine h.advance (by simp [hs]) nofun (fun _ _ => id) ⟨hparts, ?_, ?_⟩
    · intro k hk
      simpa using (mem_filter.mp hk).2
    · -- a part with a greater index is among the keys to remove
      intro k part hk hle
      have hmem : k ∈ s.parts.keys := by
        rw [← AList.mem_keys, ← AList.lookup_isSome, hk]
        rfl
      exact mem_filter.mpr ⟨hperm.mem_iff.mpr hmem, by simpa using hle⟩
  | reconcileFails =>
    simp only [step] at hstep
    cases hs : s.phase with
    | listing | reconciling todo =>
      simp only [hs, Option.some.injEq] at hstep
      subst hstep
      exact h.advance (by simp [hs]) nofun (fun _ _ => id) trivial
    | _ => simp [hs] at hstep
  | markerFails applied =>
    simp only [step, ite_none_right_eq_some, Option.some.injEq] at hstep
    obtain ⟨hs, rfl⟩ := hstep
    obtain rfl : applied = false := hok
    rw [Bool.or_false]
    exact h.advance (by simp [hs]) nofun (fun _ _ => id) trivial
  | remove keys =>
    simp only [step] at hstep
    cases hs : s.phase with
    | cleanup worker =>
      simp only [hs, ite_none_right_eq_some, Option.some.injEq] at hstep
      obtain ⟨hremoves, rfl⟩ := hstep
      refine h.advance (by simp [hs]) nofun (fun _ _ => id) ?_
      -- whatever the run has published is among the keys that are removed
      intro k part hk hcur
      unfold removes at hremoves
      cases remote with
      | true =>
        rw [if_pos rfl, decide_eq_true_eq] at hremoves
        rw [hremoves, mem_range]
        rcases h.owner k part hk with hlt | ⟨-, -, hlt⟩
        · exact absurd hcur hlt.ne
        · exact hlt
      | false =>
        have hperm : keys.Perm s.parts.keys := by simpa using hremoves
        rw [hperm.mem_iff, ← AList.mem_keys, ← AList.lookup_isSome, hk]
        rfl
    | _ => simp [hs] at hstep
  | terminate => exact absurd hok id
  | dropMarker =>
    simp only [step, Option.some.injEq] at hstep
    subst hstep
    exact ⟨h.owner, h.future, h.failed, nofun, fun hne => ⟨(h.running hne).workers,
      (h.running hne).whole, (h.running hne).bounds, (h.running hne).own⟩, h.phase⟩

/-- An export of two row groups, complete, and an export of three under way. -/
def secondRun : List Action :=
  [.start (.table [1, 2] [[1, 2], [1, 2]]) 2, .next, .next, .next, .worker 0 1 .publish,
    .worker 0 1 (.finish 10), .worker 0 1 .exit, .worker 0 0 .publish, .worker 0 0 (.finish 10),
    .worker 0 0 .exit, .next, .list [0, 1], .next, .next,
    .start (.table [1, 2, 3] [[1, 2, 3], [1, 2, 3]]) 2, .next, .worker 1 0 .publish]

/-- A run of two leaf partitions that is interrupted, and one of them by a single worker. -/
def retried : List Action :=
  [.start (.partitioned [⟨[1], [1]⟩, ⟨[1, 2], [1, 2]⟩]) 2, .next, .next, .next,
    .worker 0 1 .publish, .interrupt, .worker 0 1 .exit, .remove [0, 1], .worker 0 0 .publish,
    .next, .next, .next,
    .start (.partitioned [⟨[1], [1]⟩, ⟨[1, 2], [1, 2]⟩]) 1, .next, .next, .worker 1 0 .publish,
    .worker 1 0 .publish, .worker 1 0 (.finish 30), .worker 1 0 .exit, .next, .list [1, 0],
    .next, .next]

end PgColumnar.Export
