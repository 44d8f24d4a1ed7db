import Mathlib.Logic.IsEmpty.Defs
import Mathlib.Tactic.SplitIfs
import PgColumnar.Copy.TwoPhase

/-!
# Parallel COPY is all or nothing

A loader that has exited has stored its outcome, so whoever waits for the loaders and then
reads the slots sees every prepared transaction.  The coordinator waits before it decides and
before it rolls anything back; from the first `COMMIT PREPARED` on it has no way back.

## Main definitions

* `LoaderInv`, `PhaseInv`, `Inv` — what is prepared and committed at each statement.

## Main results

* `inv_loader`, `inv_next` — both sides keep it.
* `allOrNothing_of_run` — all rows or none, and the report says which.
-/

namespace PgColumnar.Copy

open Run List Nat
open Option (ite_none_right_eq_some)

variable {nworkers : ℕ} {dedup : Bool} {s s' : State}

/-! ### Loaders -/

/-- A loader and its slot agree. -/
structure LoaderInv (l : Loader) : Prop where
  unregistered : l.registered = false → l.gid = .absent ∧ l.slot = .pending
  durable : l.gid ≠ .absent → l.slot = .pending → l.stopped = false ∧ l.gid = .prepared
  stored : l.slot = .prepared → l.gid ≠ .absent ∧ l.rows = l.loaded
  failed : l.slot = .failed → l.gid = .absent

variable {l : Loader} {event : LoaderEvent}

theorem loaderStep_inv {l' : Loader} (h : LoaderInv l) (hstep : loaderStep l event = some l') :
    LoaderInv l' ∧ (l.registered = true ∧ l.stopped = false) ∧ l'.registered = true ∧
      (l'.gid = l.gid ∨ l'.gid = .prepared ∧ l.gid = .absent) := by
  unfold loaderStep at hstep
  obtain ⟨hrunning, hstep⟩ := ite_none_right_eq_some.mp hstep
  rw [Bool.and_eq_true, Bool.not_eq_true'] at hrunning
  cases event with
  | prepare rows =>
    simp only [ite_none_right_eq_some, Option.some.injEq] at hstep
    obtain ⟨⟨hgid, hslot⟩, rfl⟩ := hstep
    refine ⟨⟨?_, ?_, ?_, ?_⟩, hrunning, hrunning.1, .inr ⟨rfl, hgid⟩⟩
    · simp [hrunning.1]
    · intro _ _
      exact ⟨hrunning.2, rfl⟩
    · simp [hslot]
    · simp [hslot]
  | publish =>
    simp only [ite_none_right_eq_some, Option.some.injEq] at hstep
    obtain ⟨⟨hgid, hslot⟩, rfl⟩ := hstep
    refine ⟨⟨?_, ?_, ?_, ?_⟩, hrunning, hrunning.1, .inl rfl⟩
    · simp [hrunning.1]
    · simp
    · intro _
      exact ⟨hgid, rfl⟩
    · simp
  | fail =>
    simp only [ite_none_right_eq_some, Option.some.injEq] at hstep
    obtain ⟨⟨hgid, hslot⟩, rfl⟩ := hstep
    refine ⟨⟨?_, ?_, ?_, ?_⟩, hrunning, hrunning.1, .inl rfl⟩
    · simp [hrunning.1]
    · simp
    · simp
    · exact fun _ => hgid
  | exit =>
    simp only [ite_none_right_eq_some, Option.some.injEq] at hstep
    obtain ⟨hdone, rfl⟩ := hstep
    refine ⟨⟨h.unregistered, ?_, h.stored, h.failed⟩, hrunning, hrunning.1, .inl rfl⟩
    intro hgid hslot
    rcases hdone with hdone | hdone
    · exact absurd hdone hgid
    · exact absurd hslot hdone

/-- A loader that has exited has stored that its transaction is prepared. -/
theorem LoaderInv.slot_of_stopped (h : LoaderInv l)
    (hstopped : l.registered = true → l.stopped = true) (hgid : l.gid ≠ .absent) :
    l.slot = .prepared := by
  cases hslot : l.slot with
  | pending =>
    have hreg : l.registered = true := by
      by_contra hno
      exact hgid (h.unregistered (by simpa using hno)).1
    have hrun := (h.durable hgid hslot).1
    rw [hstopped hreg] at hrun
    cases hrun
  | prepared => rfl
  | failed => exact absurd (h.failed hslot) hgid

/-- Only the coordinator moves a prepared transaction. -/
theorem LoaderInv.setGid (h : LoaderInv l) {gid : Gid} (hgid : gid ≠ .absent)
    (hslot : l.slot = .prepared) : LoaderInv { l with gid := gid } where
  unregistered hreg := by
    have hpending := (h.unregistered hreg).2
    rw [hslot] at hpending
    cases hpending
  durable _ hpending := by
    rw [show l.slot = .pending from hpending] at hslot
    cases hslot
  stored _ := ⟨hgid, (h.stored hslot).2⟩
  failed hfailed := by
    rw [show l.slot = .failed from hfailed] at hslot
    cases hslot

theorem allStopped_iff : s.allStopped nworkers = true ↔
      ∀ i < nworkers, (s.loaders i).registered = true → (s.loaders i).stopped = true := by
  unfold State.allStopped
  rw [all_eq_true]
  constructor
  · intro h i hi hreg
    simpa [hreg] using h i (mem_range.mpr hi)
  · intro h i hi
    cases hreg : (s.loaders i).registered with
    | false => rfl
    | true => simpa using h i (mem_range.mp hi) hreg

/-! ### The invariant -/

/-- No transaction has ended. -/
def Unfinished (s : State) : Prop :=
  ∀ i, (s.loaders i).gid = .absent ∨ (s.loaders i).gid = .prepared

/-- The rows of the first `k` ranges. -/
def rowsBelow (s : State) (k : ℕ) : ℕ := ((List.range k).map fun i => (s.loaders i).loaded).sum

/-- The first `k` ranges are committed, and the others can be. -/
structure Committed (nworkers : ℕ) (loaders : ℕ → Loader) (k : ℕ) : Prop where
  stopped : ∀ i < nworkers, (loaders i).registered = true → (loaders i).stopped = true
  slots : ∀ i < nworkers, (loaders i).slot = .prepared
  below : ∀ i < k, (loaders i).gid = .committed
  above : ∀ i < nworkers, k ≤ i → (loaders i).gid = .prepared

/-- What is prepared and committed, by where the coordinator is. -/
def PhaseInv (nworkers : ℕ) (s : State) : Pc → Prop
  | .notStarted | .starting => ∀ i, (s.loaders i).registered = false
  | .registering _ | .waiting | .stopping _ => Unfinished s
  | .checking => Unfinished s ∧ s.allStopped nworkers = true
  | .dedupCheck => Committed nworkers s.loaders 0
  | .rollingBack _ i =>
    s.allStopped nworkers = true ∧ NoneCommitted s ∧ ∀ j < i, (s.loaders j).gid ≠ .prepared
  | .committing k => k ≤ nworkers ∧ Committed nworkers s.loaders k ∧ s.total = rowsBelow s k
  | .finishing k => k < nworkers ∧ Committed nworkers s.loaders (k + 1) ∧ s.total = rowsBelow s k
  | .recording => Committed nworkers s.loaders nworkers ∧ s.totalRows = rowsBelow s nworkers
  | .exited =>
    s.allStopped nworkers = true ∧ (∀ i, (s.loaders i).gid ≠ .prepared) ∧
      (NoneCommitted s ∧ (s.coordState = .done → s.skippedDuplicate = true) ∨
        Committed nworkers s.loaders nworkers ∧ s.coordState = .done ∧ s.skippedDuplicate = false ∧
          s.totalRows = rowsBelow s nworkers)

/-- Nothing has been counted yet. -/
def Pc.early : Pc → Bool
  | .notStarted | .starting | .registering _ | .waiting | .checking | .dedupCheck => true
  | _ => false

structure Inv (nworkers : ℕ) (s : State) : Prop where
  loaders : ∀ i, LoaderInv (s.loaders i)
  beyond : ∀ i, nworkers ≤ i → (s.loaders i).registered = false
  before : s.pc ≠ .exited → s.coordState = .pending ∧ s.skippedDuplicate = false
  early : s.pc.early = true → s.total = 0
  phase : PhaseInv nworkers s s.pc
  failure : s.report.isFailure = true → NoneCommitted s
  reported : s.report ≠ .none → s.report.isFailure = false → s.pc = .exited ∧ s.report = s.outcome

theorem inv_start : Inv nworkers State.start where
  loaders _ := ⟨fun _ => ⟨rfl, rfl⟩, fun h => absurd rfl h, nofun, nofun⟩
  beyond _ _ := rfl
  before _ := ⟨rfl, rfl⟩
  early _ := rfl
  phase _ := rfl
  failure := nofun
  reported h := absurd rfl h

/-- Nothing is committed before the first `COMMIT PREPARED`. -/
theorem Unfinished.noneCommitted (h : Unfinished s) : NoneCommitted s := by
  intro i
  rcases h i with hi | hi <;> rw [hi] <;> exact nofun

variable {i : ℕ}

theorem Inv.gid_beyond (h : Inv nworkers s) (hi : nworkers ≤ i) : (s.loaders i).gid = .absent :=
  ((h.loaders i).unregistered (h.beyond i hi)).1

theorem Inv.noneCommitted (h : Inv nworkers s)
    (hnone : ∀ i < nworkers, (s.loaders i).gid ≠ .committed) : NoneCommitted s := by
  intro i
  by_cases hi : i < nworkers
  · exact hnone i hi
  · rw [h.gid_beyond (Nat.not_lt.mp hi)]
    exact nofun

theorem firstUnprepared_eq_none (h : s.firstUnprepared nworkers = none) :
    ∀ i < nworkers, (s.loaders i).slot = .prepared := by
  unfold State.firstUnprepared at h
  rw [find?_eq_none] at h
  intro i hi
  have := h i (mem_range.mpr hi)
  simpa using this

theorem setLoader_loaders (s : State) (i j : ℕ) (l : Loader) :
    (s.setLoader i l).loaders j = if j = i then l else s.loaders j := Function.update_apply ..

/-- A property of all loaders after one of them changed. -/
theorem forall_setLoader {P : ℕ → Loader → Prop} (hl : P i l)
    (h : ∀ j, j ≠ i → P j (s.loaders j)) (j : ℕ) : P j ((s.setLoader i l).loaders j) := by
  rw [setLoader_loaders]
  split
  · next heq => exact heq ▸ hl
  · next hne => exact h j hne

/-- A stopped load has no loader that could take a step. -/
theorem not_stopped_of_loaderStep (h : Inv nworkers s)
    (hi : i < nworkers) (hstep : loaderStep (s.loaders i) event = some l) :
    s.allStopped nworkers ≠ true := by
  intro hstopped
  obtain ⟨-, ⟨hreg, hrun⟩, -, -⟩ := loaderStep_inv (h.loaders i) hstep
  rw [allStopped_iff.mp hstopped i hi hreg] at hrun
  cases hrun

/-- **A step of a loader.** -/
theorem inv_loader (h : Inv nworkers s)
    (hi : i < nworkers) (hstep : loaderStep (s.loaders i) event = some l) :
    Inv nworkers (s.setLoader i l) := by
  obtain ⟨hl, ⟨hreg, -⟩, hreg', hgid⟩ := loaderStep_inv (h.loaders i) hstep
  have hrunning := not_stopped_of_loaderStep h hi hstep
  have hnone : NoneCommitted s → NoneCommitted (s.setLoader i l) := by
    intro hnone
    refine forall_setLoader (P := fun _ l => l.gid ≠ .committed) ?_ fun j _ => hnone j
    rcases hgid with heq | ⟨heq, -⟩
    · rw [heq]
      exact hnone i
    · rw [heq]
      exact nofun
  have hopen : Unfinished s → Unfinished (s.setLoader i l) := by
    intro hopen
    refine forall_setLoader (P := fun _ l => l.gid = .absent ∨ l.gid = .prepared) ?_
      fun j _ => hopen j
    rcases hgid with heq | ⟨heq, -⟩
    · rw [heq]
      exact hopen i
    · exact .inr heq
  refine ⟨forall_setLoader (P := fun _ l => LoaderInv l) hl fun j _ => h.loaders j, ?_, h.before,
    h.early, ?_, fun hfail => hnone (h.failure hfail), h.reported⟩
  · intro j hj
    rw [setLoader_loaders, if_neg (by omega)]
    exact h.beyond j hj
  · show PhaseInv nworkers (s.setLoader i l) s.pc
    have hphase := h.phase
    revert hphase
    cases s.pc with
    | notStarted | starting =>
      intro hphase
      rw [hphase i] at hreg
      cases hreg
    | registering k | waiting | stopping why => exact hopen
    | checking => exact fun hphase => absurd hphase.2 hrunning
    | dedupCheck => exact fun hphase => absurd (allStopped_iff.mpr hphase.stopped) hrunning
    | rollingBack why k | exited => exact fun hphase => absurd hphase.1 hrunning
    | committing k | finishing k =>
      exact fun hphase => absurd (allStopped_iff.mpr hphase.2.1.stopped) hrunning
    | recording => exact fun hphase => absurd (allStopped_iff.mpr hphase.1.stopped) hrunning

/-! ### The coordinator -/

/-- Before the coordinator has exited the function can report nothing but a failure. -/
theorem Inv.not_reported (h : Inv nworkers s) (hpc : s.pc ≠ .exited) (hne : s.report ≠ .none)
    (hfail : s.report.isFailure = false) : False := hpc (h.reported hne hfail).1

/-- A step of the coordinator that only moves it on. -/
theorem Inv.move (h : Inv nworkers s) {pc : Pc} (hpc : s.pc ≠ .exited)
    (hearly : pc.early = true → s.pc.early = true) (hphase : PhaseInv nworkers s pc) :
    Inv nworkers { s with pc := pc } :=
  { h with
    before _ := h.before hpc
    early hpc' := h.early (hearly hpc')
    phase := by
      revert hphase
      cases pc <;> exact id
    reported hne hfail := (h.not_reported hpc hne hfail).elim }

theorem Committed.unfinished (h : Inv nworkers s) {k : ℕ}
    (hcommitted : Committed nworkers s.loaders k) (hnone : NoneCommitted s) : Unfinished s := by
  intro i
  by_cases hi : i < nworkers
  · refine .inr (hcommitted.above i hi ?_)
    by_contra hlt
    exact hnone i (hcommitted.below i (Nat.not_le.mp hlt))
  · exact .inl (h.gid_beyond (Nat.not_lt.mp hi))

/-- Nothing is left prepared when every range is committed. -/
theorem Committed.not_prepared (h : Inv nworkers s)
    (hcommitted : Committed nworkers s.loaders nworkers) (i : ℕ) :
    (s.loaders i).gid ≠ .prepared := by
  by_cases hi : i < nworkers
  · rw [hcommitted.below i hi]
    exact nofun
  · rw [h.gid_beyond (Nat.not_lt.mp hi)]
    exact nofun

theorem Committed.noneCommitted (h : Inv nworkers s)
    (hcommitted : Committed nworkers s.loaders 0) : NoneCommitted s := by
  refine h.noneCommitted fun i hi => ?_
  rw [hcommitted.above i hi (zero_le i)]
  exact nofun

/-- An error before anything is committed. -/
theorem inv_error (h : Inv nworkers s) (hok : NoneCommitted s ∧ s.pc ≠ .stopping .caught) {pc : Pc}
    (hpc : errorPc s.pc = some pc) : Inv nworkers { s with pc := pc } := by
  obtain ⟨hnone, hcaught⟩ := hok
  have hphase := h.phase
  cases hs : s.pc with
  | notStarted | rollingBack _ _ | exited =>
    rw [hs] at hpc
    cases hpc
  | starting =>
    rw [hs] at hpc hphase
    cases hpc
    have habsent : ∀ i, (s.loaders i).gid = .absent :=
      fun i => ((h.loaders i).unregistered (hphase i)).1
    have hbefore := h.before (by rw [hs]; exact nofun)
    refine h.move (by rw [hs]; exact nofun) nofun ⟨allStopped_iff.mpr ?_, ?_, .inl ⟨hnone, ?_⟩⟩
    · intro i _ hreg
      rw [hphase i] at hreg
      cases hreg
    · intro i
      rw [habsent i]
      exact nofun
    · rw [hbefore.1]
      exact nofun
  | registering k | waiting =>
    rw [hs] at hpc hphase
    cases hpc
    exact h.move (by rw [hs]; exact nofun) nofun hphase
  | stopping why =>
    rw [hs] at hpc hphase
    have hpc' : pc = .stopping .caught := by
      cases why <;> first | exact absurd hs hcaught | (cases hpc; rfl)
    subst hpc'
    exact h.move (by rw [hs]; exact nofun) nofun hphase
  | checking =>
    rw [hs] at hpc hphase
    cases hpc
    exact h.move (by rw [hs]; exact nofun) nofun hphase.1
  | dedupCheck =>
    rw [hs] at hpc hphase
    cases hpc
    exact h.move (by rw [hs]; exact nofun) nofun (Committed.unfinished h hphase hnone)
  | committing k | finishing k =>
    rw [hs] at hpc hphase
    cases hpc
    exact h.move (by rw [hs]; exact nofun) nofun (Committed.unfinished h hphase.2.1 hnone)
  | recording =>
    rw [hs] at hpc hphase
    cases hpc
    exact h.move (by rw [hs]; exact nofun) nofun (Committed.unfinished h hphase.1 hnone)

/-- One transaction rolled back, or passed over. -/
theorem inv_rollback (h : Inv nworkers s) {why : Reason} (hpc : s.pc = .rollingBack why i)
    (hi : i < nworkers) :
    Inv nworkers { s.setLoader i
      (if mustRollBack why (s.loaders i) then (s.loaders i).rollback else s.loaders i) with
        pc := .rollingBack why (i + 1) } := by
  have hphase := h.phase
  rw [hpc] at hphase
  obtain ⟨hstopped, hnone, hbelow⟩ := hphase
  have hl := h.loaders i
  generalize hnew : (if mustRollBack why (s.loaders i) then (s.loaders i).rollback
    else s.loaders i) = l
  have hslot : (s.loaders i).gid = .prepared → (s.loaders i).slot = .prepared := by
    intro hgid
    exact hl.slot_of_stopped (allStopped_iff.mp hstopped i hi) (by rw [hgid]; exact nofun)
  -- whoever has exited with a prepared transaction has said so in its slot
  have hgid : LoaderInv l ∧ l.registered = (s.loaders i).registered ∧
      l.stopped = (s.loaders i).stopped ∧ l.gid ≠ .prepared ∧ l.gid ≠ .committed := by
    by_cases hprepared : (s.loaders i).gid = .prepared
    · have hmust : mustRollBack why (s.loaders i) = true := by
        unfold mustRollBack
        rw [hslot hprepared]
        simp
      rw [if_pos hmust, Loader.rollback, if_pos hprepared] at hnew
      subst hnew
      exact ⟨hl.setGid nofun (hslot hprepared), rfl, rfl, nofun, nofun⟩
    · have hsame : l = s.loaders i := by
        rw [← hnew, Loader.rollback, if_neg hprepared, ite_self]
      rw [hsame]
      exact ⟨hl, rfl, rfl, hprepared, hnone i⟩
  obtain ⟨hinv, hreg, hstop, hnotprepared, hnotcommitted⟩ := hgid
  have hnone' : NoneCommitted (s.setLoader i l) :=
    forall_setLoader (P := fun _ l => l.gid ≠ .committed) hnotcommitted fun j _ => hnone j
  refine ⟨forall_setLoader (P := fun _ l => LoaderInv l) hinv fun j _ => h.loaders j, ?_,
    fun _ => h.before (by rw [hpc]; exact nofun), nofun, ⟨?_, hnone', ?_⟩, fun _ => hnone', ?_⟩
  · intro j hj
    show ((s.setLoader i l).loaders j).registered = false
    rw [setLoader_loaders, if_neg (by omega)]
    exact h.beyond j hj
  · refine allStopped_iff.mpr fun j hj => ?_
    refine forall_setLoader (P := fun j l => j < nworkers → l.registered = true → l.stopped = true)
      ?_ (fun j _ => allStopped_iff.mp hstopped j) j hj
    rw [hreg, hstop]
    exact allStopped_iff.mp hstopped i
  · intro j hj
    refine forall_setLoader (P := fun j l => j < i + 1 → l.gid ≠ .prepared) (fun _ => hnotprepared)
      (fun j hne hj => hbelow j (by omega)) j hj
  · exact fun hne hfail => (h.not_reported (by rw [hpc]; exact nofun) hne hfail).elim

/-- The outcome stored behind the last rollback. -/
theorem inv_storeOutcome (h : Inv nworkers s) {why : Reason}
    (hpc : s.pc = .rollingBack why i) (hi : nworkers ≤ i) :
    Inv nworkers (s.storeOutcome nworkers why) := by
  have hphase := h.phase
  rw [hpc] at hphase
  obtain ⟨hstopped, hnone, hbelow⟩ := hphase
  have hsettled : ∀ j, (s.loaders j).gid ≠ .prepared := by
    intro j
    by_cases hj : j < nworkers
    · exact hbelow j (by omega)
    · rw [h.gid_beyond (Nat.not_lt.mp hj)]
      exact nofun
  have hreported : ∀ s', s.report ≠ .none → s.report.isFailure = false →
      s'.pc = .exited ∧ s.report = State.outcome s' := by
    exact fun s' hne hfail => (h.not_reported (by rw [hpc]; exact nofun) hne hfail).elim
  cases why with
  | duplicate =>
    exact ⟨h.loaders, h.beyond, fun hne => absurd rfl hne, nofun,
      ⟨hstopped, hsettled, .inl ⟨hnone, fun _ => rfl⟩⟩, fun _ => hnone, hreported _⟩
  | cancelled | caught | loaderFailed =>
    exact ⟨h.loaders, h.beyond, fun hne => absurd rfl hne, nofun,
      ⟨hstopped, hsettled, .inl ⟨hnone, nofun⟩⟩, fun _ => hnone, hreported _⟩

/-- One transaction committed. -/
theorem inv_commit (h : Inv nworkers s) {k : ℕ} (hpc : s.pc = .committing k) (hk : k < nworkers)
    (hok : s.report.isFailure = false) :
    Inv nworkers { s.setLoader k { s.loaders k with gid := .committed } with
      pc := .finishing k } := by
  have hphase := h.phase
  rw [hpc] at hphase
  obtain ⟨-, hcommitted, htotal⟩ := hphase
  have hslot := hcommitted.slots k hk
  refine ⟨forall_setLoader (P := fun _ l => LoaderInv l) ((h.loaders k).setGid nofun hslot)
    fun j _ => h.loaders j, ?_, fun _ => h.before (by rw [hpc]; exact nofun), nofun,
      ⟨hk, ⟨?_, ?_, ?_, ?_⟩,
      ?_⟩, ?_, ?_⟩
  · exact forall_setLoader (P := fun j l => nworkers ≤ j → l.registered = false) (h.beyond k)
      fun j _ => h.beyond j
  · exact forall_setLoader (P := fun j l => j < nworkers → l.registered = true → l.stopped = true)
      (hcommitted.stopped k) fun j _ => hcommitted.stopped j
  · exact forall_setLoader (P := fun j l => j < nworkers → l.slot = .prepared)
      (hcommitted.slots k) fun j _ => hcommitted.slots j
  · exact forall_setLoader (P := fun j l => j < k + 1 → l.gid = .committed) (fun _ => rfl)
      fun j hne hj => hcommitted.below j (by omega)
  · exact forall_setLoader (P := fun j l => j < nworkers → k + 1 ≤ j → l.gid = .prepared)
      (fun _ hlt => absurd hlt (by omega)) fun j _ hj hle => hcommitted.above j hj (by omega)
  · show s.total = rowsBelow _ k
    rw [htotal]
    unfold rowsBelow
    congr 1
    apply map_congr_left
    intro j _
    exact (forall_setLoader (s := s) (i := k) (l := { s.loaders k with gid := .committed })
      (P := fun j l => l.loaded = (s.loaders j).loaded) rfl (fun _ _ => rfl) j).symm
  · intro hfail
    rw [show s.report.isFailure = true from hfail] at hok
    cases hok
  · exact fun hne hfail => (h.not_reported (by rw [hpc]; exact nofun) hne hfail).elim

theorem rowsBelow_succ (s : State) (k : ℕ) :
    rowsBelow s (k + 1) = rowsBelow s k + (s.loaders k).loaded := by
  unfold rowsBelow
  rw [range_succ, map_append, sum_append_nat]
  simp

/-- A loader registered. -/
theorem inv_register (h : Inv nworkers s) (hpc : s.pc = .registering i) (hi : i < nworkers) :
    Inv nworkers { s.setLoader i { s.loaders i with registered := true } with
      pc := .registering (i + 1) } := by
  have hphase := h.phase
  rw [hpc] at hphase
  have hl := h.loaders i
  have hopen : Unfinished (s.setLoader i { s.loaders i with registered := true }) :=
    forall_setLoader (P := fun _ l => l.gid = .absent ∨ l.gid = .prepared) (hphase i)
      fun j _ => hphase j
  refine ⟨forall_setLoader (P := fun _ l => LoaderInv l) ⟨nofun, hl.durable, hl.stored, hl.failed⟩
    fun j _ => h.loaders j, ?_, fun _ => h.before (by rw [hpc]; exact nofun),
    fun _ => h.early (by rw [hpc]; rfl), hopen, fun _ => hopen.noneCommitted, ?_⟩
  · exact forall_setLoader (P := fun j l => nworkers ≤ j → l.registered = false)
      (fun hle => absurd hle (by omega)) fun j _ => h.beyond j
  · exact fun hne hfail => (h.not_reported (by rw [hpc]; exact nofun) hne hfail).elim

/-- **The next statement of the coordinator.** -/
theorem inv_next (h : Inv nworkers s)
    (hok : ∀ i < nworkers, s.pc = .committing i → s.report.isFailure = false)
    (hstep : coordNext nworkers dedup s = some s') : Inv nworkers s' := by
  have hphase := h.phase
  unfold coordNext at hstep
  cases hs : s.pc with
  | notStarted | dedupCheck | exited =>
    simp only [hs] at hstep
    cases hstep
  | starting =>
    simp only [hs, Option.some.injEq] at hstep hphase
    subst hstep
    exact h.move (by rw [hs]; exact nofun) (fun _ => by rw [hs]; rfl)
      fun i => .inl ((h.loaders i).unregistered (hphase i)).1
  | registering i =>
    simp only [hs] at hstep hphase
    split at hstep
    · next hi =>
      cases hstep
      exact inv_register h hs hi
    · cases hstep
      exact h.move (by rw [hs]; exact nofun) (fun _ => by rw [hs]; rfl) hphase
  | waiting =>
    simp only [hs] at hstep hphase
    split at hstep
    · cases hstep
      exact h.move (by rw [hs]; exact nofun) nofun hphase
    · split_ifs at hstep with hstopped
      cases hstep
      exact h.move (by rw [hs]; exact nofun) (fun _ => by rw [hs]; rfl) ⟨hphase, hstopped⟩
  | stopping why =>
    simp only [hs] at hstep hphase
    obtain ⟨hstopped, hstep⟩ := ite_none_right_eq_some.mp hstep
    cases hstep
    exact h.move (by rw [hs]; exact nofun) nofun
      ⟨hstopped, Unfinished.noneCommitted hphase, fun j hj => absurd hj (not_lt_zero j)⟩
  | rollingBack why i =>
    simp only [hs] at hstep
    split at hstep
    · next hi =>
      cases hstep
      exact inv_rollback h hs hi
    · next hi =>
      cases hstep
      exact inv_storeOutcome h hs (Nat.not_lt.mp hi)
  | checking =>
    simp only [hs] at hstep hphase
    obtain ⟨hopen, hstopped⟩ := hphase
    split at hstep
    · cases hstep
      exact h.move (by rw [hs]; exact nofun) nofun
        ⟨hstopped, hopen.noneCommitted, fun j hj => absurd hj (not_lt_zero j)⟩
    · next hnone =>
      cases hstep
      have hslots := firstUnprepared_eq_none hnone
      have hcommitted : Committed nworkers s.loaders 0 :=
        ⟨allStopped_iff.mp hstopped, hslots, fun i hi => absurd hi (not_lt_zero i),
          fun i hi _ => (hopen i).resolve_left ((h.loaders i).stored (hslots i hi)).1⟩
      cases dedup with
      | true => exact h.move (by rw [hs]; exact nofun) (fun _ => by rw [hs]; rfl) hcommitted
      | false =>
        exact h.move (by rw [hs]; exact nofun) nofun
          ⟨zero_le _, hcommitted, h.early (by rw [hs]; rfl)⟩
  | committing k =>
    simp only [hs] at hstep hphase
    obtain ⟨hk, hcommitted, htotal⟩ := hphase
    split at hstep
    · next hlt =>
      split at hstep
      · cases hstep
        exact inv_commit h hs hlt (hok k hlt hs)
      · cases hstep
    · next hge =>
      -- every range is committed, and the total is that of all of them
      obtain rfl : k = nworkers := by omega
      have hbefore := h.before (by rw [hs]; exact nofun)
      have hsettled := Committed.not_prepared h hcommitted
      have hopen : s.pc ≠ .exited := by
        rw [hs]
        exact nofun
      cases dedup with
      | true =>
        cases hstep
        exact ⟨h.loaders, h.beyond, fun _ => hbefore, nofun, ⟨hcommitted, htotal⟩, h.failure,
          fun hne hfail => (h.not_reported hopen hne hfail).elim⟩
      | false =>
        cases hstep
        exact ⟨h.loaders, h.beyond, fun hne => absurd rfl hne, nofun,
          ⟨allStopped_iff.mpr hcommitted.stopped,
            hsettled, .inr ⟨hcommitted, rfl, hbefore.2, htotal⟩⟩,
          h.failure, fun hne hfail => (h.not_reported hopen hne hfail).elim⟩
  | finishing k =>
    simp only [hs, Option.some.injEq] at hstep hphase
    subst hstep
    obtain ⟨hk, hcommitted, htotal⟩ := hphase
    refine ⟨h.loaders, h.beyond, fun _ => h.before (by rw [hs]; exact nofun), nofun,
      ⟨hk, hcommitted, ?_⟩, h.failure, ?_⟩
    · show s.total + (s.loaders k).rows = rowsBelow s (k + 1)
      rw [rowsBelow_succ, htotal, ((h.loaders k).stored (hcommitted.slots k hk)).2]
    · intro hne hfail
      have hexited := (h.reported hne hfail).1
      rw [hs] at hexited
      cases hexited
  | recording =>
    simp only [hs, Option.some.injEq] at hstep hphase
    subst hstep
    obtain ⟨hcommitted, htotal⟩ := hphase
    have hsettled := Committed.not_prepared h hcommitted
    refine ⟨h.loaders, h.beyond, fun hne => absurd rfl hne, nofun,
      ⟨allStopped_iff.mpr hcommitted.stopped, hsettled,
        .inr ⟨hcommitted, rfl, (h.before (by rw [hs]; exact nofun)).2, htotal⟩⟩, h.failure, ?_⟩
    exact fun hne hfail => (h.not_reported (by rw [hs]; exact nofun) hne hfail).elim

/-! ### Runs -/

theorem outcome_isFailure (h : s.coordState = .done) : s.outcome.isFailure = false := by
  unfold State.outcome
  rw [h]
  cases s.skippedDuplicate <;> rfl

theorem inv_step (h : Inv nworkers s) (a : Action) (hok : Benign nworkers s a)
    (hstep : step nworkers dedup s a = some s') : Inv nworkers s' := by
  cases a with
  | loader i event =>
    obtain ⟨hi, hstep⟩ := ite_none_right_eq_some.mp hstep
    obtain ⟨l, hl, rfl⟩ := Option.map_eq_some_iff.mp hstep
    exact inv_loader h hi hl
  | launch ok =>
    obtain ⟨hstart, hstep⟩ := ite_none_right_eq_some.mp hstep
    have hphase : ∀ i, (s.loaders i).registered = false := by
      have hphase := h.phase
      rwa [hstart.1] at hphase
    have hopen : s.pc ≠ .exited := by
      rw [hstart.1]
      exact nofun
    cases ok with
    | true =>
      cases hstep
      exact h.move hopen (fun _ => by rw [hstart.1]; rfl) hphase
    | false =>
      cases hstep
      -- no loader is registered yet, so none has prepared anything
      have habsent : ∀ i, (s.loaders i).gid = .absent :=
        fun i => ((h.loaders i).unregistered (hphase i)).1
      have hnone : NoneCommitted s := by
        intro i
        rw [habsent i]
        exact nofun
      refine ⟨h.loaders, h.beyond, fun hne => absurd rfl hne, nofun,
        ⟨allStopped_iff.mpr ?_, ?_, .inl ⟨hnone, ?_⟩⟩, fun _ => hnone, nofun⟩
      · intro i _ hreg
        have hno := hphase i
        rw [show (s.loaders i).registered = true from hreg] at hno
        cases hno
      · intro i
        show (s.loaders i).gid ≠ .prepared
        rw [habsent i]
        exact nofun
      · show s.coordState = .done → _
        rw [(h.before hopen).1]
        exact nofun
  | next => exact inv_next h hok hstep
  | lookup seen =>
    obtain ⟨hpc, hstep⟩ := ite_none_right_eq_some.mp hstep
    have hphase := h.phase
    rw [hpc] at hphase
    have hopen : s.pc ≠ .exited := by
      rw [hpc]
      exact nofun
    cases seen with
    | true =>
      cases hstep
      exact h.move hopen nofun ⟨allStopped_iff.mpr hphase.stopped,
        Committed.noneCommitted h hphase, fun j hj => absurd hj (not_lt_zero j)⟩
    | false =>
      cases hstep
      exact h.move hopen nofun ⟨zero_le _, hphase, h.early (by rw [hpc]; rfl)⟩
  | error =>
    obtain ⟨pc, hpc, rfl⟩ := Option.map_eq_some_iff.mp hstep
    exact inv_error h ⟨h.noneCommitted hok.1, hok.2⟩ hpc
  | rollbackFails => exact absurd hok id
  | terminate =>
    cases hstep
    exact ⟨h.loaders, h.beyond, h.before, h.early, h.phase, h.failure, h.reported⟩
  | cancel =>
    simp only [step] at hstep
    split at hstep
    · cases hstep
      exact ⟨h.loaders, h.beyond, h.before, h.early, h.phase, fun _ => h.noneCommitted hok, nofun⟩
    · cases hstep
  | returns =>
    obtain ⟨hexited, hstep⟩ := ite_none_right_eq_some.mp hstep
    cases hstep
    refine ⟨h.loaders, h.beyond, h.before, h.early, h.phase, ?_, fun _ _ => ⟨hexited.1, rfl⟩⟩
    intro hfail
    have hphase := h.phase
    rw [hexited.1] at hphase
    rcases hphase.2.2 with hnone | hdone
    · exact hnone.1
    · -- a load that is done is not reported as a failure
      have hno := outcome_isFailure hdone.2.1
      rw [show s.outcome.isFailure = true from hfail] at hno
      cases hno

/-- **Parallel COPY is all or nothing** in a run of benign steps. -/
theorem allOrNothing_of_run {as : List Action}
    (hok : AllSteps (step nworkers dedup) (Benign nworkers) State.start as)
    (hrun : run (step nworkers dedup) State.start as = some s) (hfinal : Final nworkers s) :
    AllOrNothing nworkers s := by
  have hinv : Inv nworkers s :=
    run_invariant_of (fun s a s' hs hok hstep => inv_step hs a hok hstep) inv_start hok hrun
  obtain ⟨hpc, hreport, -⟩ := hfinal
  have hphase := hinv.phase
  rw [hpc] at hphase
  obtain ⟨-, hsettled, hphase⟩ := hphase
  refine ⟨?_, hsettled, hinv.failure⟩
  cases hfail : s.report.isFailure with
  | true => exact .inr ⟨hinv.failure hfail, .inl rfl⟩
  | false =>
    have hrep := (hinv.reported hreport hfail).2
    rcases hphase with ⟨hnone, hskipped⟩ | ⟨hcommitted, hdone, hskipped, htotal⟩
    · refine .inr ⟨hnone, .inr ?_⟩
      rw [hrep] at hfail ⊢
      unfold State.outcome at hfail ⊢
      cases hdone : s.coordState with
      | done => rw [hskipped hdone, if_pos rfl]
      | pending | failed =>
        rw [hdone] at hfail
        cases hfail
    · refine .inl ⟨hcommitted.below, hdone, ?_⟩
      rw [hrep]
      unfold State.outcome
      rw [hdone, hskipped, htotal]
      rfl

/-! ### A load that is there and reported failed -/

/-- One range, with `dedup`; the insert of the fingerprint raises an error. -/
def recordingFails : List Action :=
  [.launch true, .next, .next, .next, .loader 0 (.prepare 5), .loader 0 .publish, .loader 0 .exit,
    .next, .next, .lookup false, .next, .next, .next, .error, .next, .next, .next, .returns]

theorem recordingFails_not_allOrNothing :
    ¬ ∀ nworkers dedup as s, run (step nworkers dedup) State.start as = some s →
      Final nworkers s → AllOrNothing nworkers s := by
  intro h
  have hrun : ∃ s, run (step 1 true) State.start recordingFails = some s ∧ Final 1 s ∧
      s.report = .failure none ∧ (s.loaders 0).gid = .committed := by
    refine ⟨_, rfl, ⟨rfl, nofun, rfl⟩, rfl, rfl⟩
  obtain ⟨s, hs, hfinal, hreport, hgid⟩ := hrun
  refine (h 1 true recordingFails s hs hfinal).failure ?_ 0 hgid
  rw [hreport]
  rfl

/-- Two ranges, prepared and committed. -/
def twoRanges : List Action :=
  [.launch true, .next, .next, .next, .next, .loader 1 (.prepare 2), .loader 0 (.prepare 5),
    .loader 0 .publish, .loader 0 .exit, .loader 1 .publish, .loader 1 .exit,
    .next, .next, .next, .next, .next, .next, .next, .returns]

theorem allOrNothing_of_run_twoRanges :
    ∃ s, run (step 2 false) State.start twoRanges = some s ∧ AllOrNothing 2 s := by
  have hrun : ∃ s, run (step 2 false) State.start twoRanges = some s ∧ Final 2 s :=
    ⟨_, rfl, ⟨rfl, nofun, rfl⟩⟩
  obtain ⟨s, hs, hfinal⟩ := hrun
  exact ⟨s, hs, allOrNothing_of_run (by decide) hs hfinal⟩

end PgColumnar.Copy
