import PgColumnar.Extent.PreCommit
import PgColumnar.Lib.Run
import PgColumnar.Zone.Btree

/-!
# What a reader is told

A reader whose snapshot sees a complete row is given bounds on every value of the column
it can see, its own flushed groups included.

This holds for a column whose type has a btree comparison.  For a type without one the
zone maps have no bounds and a transaction that flushes values of it writes no row, as
`PgColumnarExtentNote` returns at once; but a recompute that finds no value at all, the
last group of the table having been retired, still writes a complete row.  From then on
the column is reported to have no values.

Nor does it hold when a snapshot leaves out a lazy vacuum that is under way: the deletion of a
group may be taken back in passing, and the recompute of the vacuum has left it out.

## Main definitions

* `ExtentSound` — what a reader is told bounds what it sees.
* `Orderable` — what is asked of a recompute for a type without a comparison.

## Main results

* `extentSound_run` — the extent bounds the column, in every state of such a run.
-/

namespace PgColumnar.Extent

open Mvcc Zone Compare Encoding List

variable {α ε : Type} {cmp : α → α → ℤ} {s s' : State α} {col : ColumnDef α ε}

/-! ## Runs -/

theorem Inv.init (lazy : ℕ → Bool) (old : List (List (Option α))) :
    Inv cmp (State.init lazy old) := by
  have hrun : ∀ x, (State.init lazy old).clock.status x ≠ .running := by
    intro x hx
    dsimp only [State.init] at hx
    split at hx <;> cases hx
  have hwriter : ∀ g ∈ (State.init lazy old).groups, g.zone = none ∧ g.writer = 0 ∧
    g.retirer = none := by
    intro g hg
    obtain ⟨rows, _, rfl⟩ := mem_map.mp hg
    exact ⟨rfl, rfl, rfl⟩
  have hsound : ∀ W, Sound cmp (State.init lazy old) W := by
    rintro W ⟨r, hr, _⟩
    cases hr
  refine
    { clock := ?_, usedGroups := ?_, usedRows := by nofun, zoned := ?_,
      tops := fun x hx => absurd hx (hrun x), phases := fun t ht => absurd rfl ht,
      locked := by nofun, replacing := by nofun, pending := fun t _ _ _ => rfl,
      inserters := by nofun, completes := by nofun, deleters := by nofun,
      own := fun g _ hx => absurd hx (hrun _), views := fun W _ => hsound W,
      snapshots := by nofun, computing := by nofun }
  · refine ⟨fun x hx => ?_, by nofun, by nofun⟩
    have hx : 1 ≤ x := hx
    exact if_neg (by omega)
  · intro g hg
    obtain ⟨_, hw, hr⟩ := hwriter g hg
    rw [hw, hr]
    exact ⟨by nofun, by nofun⟩
  · intro g hg
    obtain ⟨hz, hw, _⟩ := hwriter g hg
    rw [hw]
    exact .inl ⟨hz, rfl⟩

theorem working_iff {x : ℕ} : s.working x = true ↔ s.clock.status x = .running ∧
    s.clock.status (s.top x) = .running ∧ (s.xact (s.top x)).phase = .active := by
  simp [State.working, and_assoc]

variable {t : ℕ}

theorem Inv.commit (h : Inv cmp s) (hrun : s.clock.status t = .running)
    (htop : s.top t = t) (hdone : (s.xact t).phase = .done) :
    Ends s (s.clock.running.filter fun x => decide (s.top x = t)) [t] .committed := by
  have hmem : ∀ x, x ∈ s.clock.running.filter (fun x => decide (s.top x = t)) ↔
      s.clock.status x = .running ∧ s.top x = t := by
    intro x
    rw [mem_filter, Clock.mem_running h.clock, decide_eq_true_eq]
  refine ⟨fun x hx => ((hmem x).mp hx).1, .inl rfl, ?_, ?_, ?_, ?_, ?_⟩
  · intro x hx _
    exact mem_singleton.mpr ((hmem x).mp hx).2
  · intro u hu
    rw [mem_singleton.mp hu]
    exact (hmem t).mpr ⟨hrun, htop⟩
  · intro x hx hself
    exact mem_singleton.mpr (hself.symm.trans ((hmem x).mp hx).2)
  · intro x hx hu
    exact (hmem x).mpr ⟨hx, mem_singleton.mp hu⟩
  · intro _ x hx
    rw [((hmem x).mp hx).2]
    refine ⟨mem_singleton.mpr rfl, h.pending t ?_ ?_ ?_⟩
    · rw [hdone]
      nofun
    · rw [hdone]
      nofun
    · intro snap
      rw [hdone]
      nofun

variable {a : Action α}

/-- No lazy vacuum is left out of a snapshot that the step takes, but the one that takes it. -/
def Listed (s : State α) : Action α → Prop
  | .takeSnapshot => s.clock.Lists s.lazy
  | .retire x _ => s.clock.Lists (s.others (s.top x))
  | .recomputeLock t | .look t | .tryLock t => s.clock.Lists (s.others t)
  | _ => True

theorem Inv.stepPreCommit (h : Inv cmp s) (hcmp : col.cmp = some cmp) (hc : TotalCmp cmp)
    (hl : ∀ u, a = .recomputeLock u ∨ a = .tryLock u → s.clock.Lists (s.others t))
    (hs : stepPreCommit col s t a = some s') : Inv cmp s' := by
  unfold Extent.stepPreCommit at hs
  split at hs
  · -- its row is written, or set aside
    split at hs
    · next hactive =>
      have hlock : s.lock ≠ some t := fun heq => h.active_ne heq hactive
      obtain ⟨hcond, hs⟩ := Option.ite_none_right_eq_some.mp hs
      obtain ⟨hrun, htop⟩ := hcond
      split at hs
      · cases hs
        exact h.setPhase hrun htop hlock (by simp) (by simp) fun hne => absurd rfl hne
      · next hrec =>
        split at hs
        · next hnone =>
          cases hs
          have hset := h.setPhase (p := .done) hrun htop hlock (by simp) (by simp) fun _ => hnone
          have heq : { s.xact t with phase := .done } = (⟨none, false, .done⟩ : Xact α) := by
            dsimp only
            rw [hnone, Bool.eq_false_of_not_eq_true hrec]
          rw [heq] at hset
          exact hset
        · next p hp =>
          cases hs
          exact h.writeRow hrun htop hactive hp
    · cases hs
  · -- the lock for the recompute
    split at hs
    · next hphase =>
      obtain ⟨hfree, hs⟩ := Option.ite_none_right_eq_some.mp hs
      cases hs
      refine h.takeLock (hl _ (.inl rfl)) ?_ (Option.isNone_iff_eq_none.mp hfree) (by simp)
      rw [hphase]
      rintro ⟨⟩
    · cases hs
  · -- a look at the rows
    split at hs
    · next hphase =>
      have hactive : (s.xact t).phase ≠ .active := by
        rw [hphase]
        rintro ⟨⟩
      obtain ⟨hrun, htop⟩ := h.phases t hactive
      have hlock : s.lock ≠ some t := by
        intro heq
        rcases (h.locked t heq).2.2 with hp | ⟨_, _, hp⟩ <;> rw [hphase] at hp <;> cases hp
      have hnone : (s.xact t).pending = none :=
        h.pending t hactive (by rw [hphase]; nofun) (by rw [hphase]; nofun)
      dsimp only at hs
      split at hs
      · cases hs
        exact h.setPhase hrun htop hlock (by simp) (by simp) fun _ => hnone
      · cases hs
        exact h.setPhase hrun htop hlock (by simp) (by simp) fun _ => hnone
    · cases hs
  · -- the lock, if it is free
    split at hs
    · next complete hphase =>
      have hactive : (s.xact t).phase ≠ .active := by
        rw [hphase]
        rintro ⟨⟩
      obtain ⟨hrun, htop⟩ := h.phases t hactive
      have hnone : (s.xact t).pending = none :=
        h.pending t hactive (by rw [hphase]; nofun) (by rw [hphase]; nofun)
      split at hs
      · next hfree =>
        cases hs
        exact h.takeLock (hl _ (.inr rfl)) hactive (Option.isNone_iff_eq_none.mp hfree)
          fun _ => hnone
      · cases hs
        refine h.setPhase hrun htop ?_ (by simp) (by simp) fun _ => hnone
        intro heq
        rcases (h.locked t heq).2.2 with hp | ⟨_, _, hp⟩ <;> rw [hphase] at hp <;> cases hp
    · cases hs
  · split at hs
    · next merge snap hphase =>
      cases hs
      exact h.replace hcmp hc hphase
    · cases hs
  · cases hs

/-- Every id under way is in the snapshots that are held, so there are no hints. -/
theorem Inv.step_hint (h : Inv cmp s) (ha : ∃ k i, a = .hintGroup k i ∨ a = .hintExtent k i) :
    Extent.step col s a = none := by
  rw [Option.eq_none_iff_forall_ne_some]
  intro s' hs
  obtain ⟨k, i, rfl | rfl⟩ := ha
  all_goals
    obtain ⟨snap, hsnap, hs⟩ := Option.bind_eq_some_iff.mp hs
    have hnot : ∀ y, ¬ s.clock.Missed snap y := fun y => h.clock.not_missed (mem_of_getElem? hsnap)
    simp [stepHint, hnot] at hs

theorem Inv.step (h : Inv cmp s) (hcmp : col.cmp = some cmp) (hc : TotalCmp cmp)
    (hfast : FastCmpOk col) (hl : Listed s a) (hs : step col s a = some s') : Inv cmp s' := by
  cases a with
  | begin =>
    cases hs
    exact h.begin (.inl rfl)
  | beginSub t =>
    obtain ⟨hcond, hs⟩ := Option.ite_none_right_eq_some.mp hs
    cases hs
    exact h.begin (.inr ⟨(working_iff.mp hcond.1).1, hcond.2⟩)
  | commit t =>
    obtain ⟨hcond, hs⟩ := Option.ite_none_right_eq_some.mp hs
    cases hs
    exact h.finish (h.commit hcond.1 hcond.2.1 hcond.2.2)
  | abort xs =>
    obtain ⟨hcond, hs⟩ := Option.ite_none_right_eq_some.mp hs
    cases hs
    refine h.finish ⟨fun x hx => (hcond.1 x hx).1, .inr rfl, ?_, fun _ ht => ht, fun _ hx _ => hx,
      ?_, by nofun⟩
    · intro x hx hphase
      exact (hcond.1 x hx).2.resolve_right hphase
    · intro x hx hus
      exact hcond.2 x ((Clock.mem_running h.clock).mpr hx) hus
  | takeSnapshot =>
    cases hs
    exact h.takeSnapshot hl
  | append x vectors =>
    obtain ⟨hx, hs⟩ := Option.ite_none_right_eq_some.mp hs
    cases hs
    obtain ⟨hrun, _, hactive⟩ := working_iff.mp hx
    have hz := zoned_chunkZoneOf hcmp hc hfast vectors x none
    have heq : extentCmp col = cmp := by
      funext a b
      simp only [extentCmp, hcmp]
    refine h.append ?_ ?_ hrun rfl hactive rfl hz
    · intro v hcov
      rw [extentNote, heq]
      exact hcov.foldMinMax_left hc
    · intro v hv
      obtain ⟨z, hz, _, hcov⟩ := hz
      cases hz
      rw [extentNote, heq]
      exact (hcov v hv).foldMinMax_right hc
  | retire x i =>
    simp only [Extent.step] at hs
    split at hs
    · cases hs
    · next g hg =>
      obtain ⟨hcond, hs⟩ := Option.ite_none_right_eq_some.mp hs
      cases hs
      exact h.retire (working_iff.mp hcond.1).1 hg hcond.2.2
  | preCommit t => exact h.stepPreCommit (a := .preCommit t) hcmp hc (by simp) hs
  | recomputeLock t => exact h.stepPreCommit (a := .recomputeLock t) hcmp hc (fun _ _ => hl) hs
  | look t => exact h.stepPreCommit (a := .look t) hcmp hc (by simp) hs
  | tryLock t => exact h.stepPreCommit (a := .tryLock t) hcmp hc (fun _ _ => hl) hs
  | replace t => exact h.stepPreCommit (a := .replace t) hcmp hc (by simp) hs
  | hintGroup k i | hintExtent k i =>
    rw [h.step_hint (by simp)] at hs
    cases hs

/-! ## Bounds for readers -/

/-- Every reader that is not committing, under every snapshot: with a complete row it is
given bounds on every value it can see. -/
def ExtentSound (col : ColumnDef α ε) (s : State α) : Prop :=
  ∀ snap ∈ s.clock.snapshots, ∀ t, (s.xact t).phase = .active →
    ∀ b, s.extentBound col snap t = some b →
      ∀ g ∈ s.readRowGroupList (s.vis snap t), ∀ v, some v ∈ g.rows →
        ∃ p, b = some p ∧ ∀ cmp ∈ col.cmp, cmp p.1 v ≤ 0 ∧ cmp v p.2 ≤ 0

/-- A transaction that works has neither written nor deleted a row. -/
theorem Inv.own_of_active (h : Inv cmp s) {x : ℕ} (hactive : (s.xact t).phase = .active)
    (hrun : s.clock.status x = .running) (htop : s.top x = t) {r : ExtentRow α}
    (hr : r ∈ s.extents) : r.inserter ≠ x ∧ x ∉ r.deleter := by
  constructor
  · rintro rfl
    obtain ⟨hself, hphase⟩ := h.inserters r hr hrun
    rw [hself.symm.trans htop, hactive] at hphase
    exact hphase rfl
  · intro hx
    obtain ⟨hlock, hdone⟩ := h.deleters r hr x hx hrun
    rw [(h.locked x hlock).2.1.symm.trans htop, hactive] at hdone
    cases hdone

/-- To a transaction that works the rows are as its snapshot has them. -/
theorem Inv.rvis_at (h : Inv cmp s) {snap : Snapshot}
    (hactive : (s.xact t).phase = .active) {r : ExtentRow α} (hr : r ∈ s.extents) :
    RVis (At s snap t) r ↔ RVis (s.clock.sees snap) r := by
  constructor
  · rintro ⟨hins, hdel⟩
    refine ⟨hins.resolve_right fun hown => ?_, fun y hy hsees => hdel y hy (.inl hsees)⟩
    exact (h.own_of_active hactive hown.1 hown.2 hr).1 rfl
  · rintro ⟨hins, hdel⟩
    refine ⟨.inl hins, fun y hy hat => ?_⟩
    rcases hat with hsees | hown
    · exact hdel y hy hsees
    · exact (h.own_of_active hactive hown.1 hown.2 hr).2 hy

theorem Inv.extentSound (h : Inv cmp s) (hcmp : col.cmp = some cmp) (hc : TotalCmp cmp) :
    ExtentSound col s := by
  intro snap hsnap t hactive b hb g hg v hv
  have heq : extentCmp col = cmp := by
    funext a b
    simp only [extentCmp, hcmp]
  obtain ⟨hg, hvis⟩ := mem_readRowGroupList.mp hg
  unfold State.extentBound at hb
  dsimp only at hb
  obtain ⟨hany, hb⟩ := Option.ite_none_right_eq_some.mp hb
  obtain ⟨r, hr, hcomplete⟩ := any_eq_true.mp hany
  obtain ⟨hr, hrvis⟩ := mem_readExtentRows.mp hr
  cases hb
  rw [heq]
  have hcov : Covers cmp (foldMinMax cmp (foldBounds col
      ((s.readExtentRows (s.vis snap t)).map (·.bounds))) (s.xact t).pending) v := by
    rcases hvis.1 with hsees | ⟨hrun, htop⟩
    · -- a group of the snapshot is within the rows of the snapshot
      have hgvis : GVis (s.clock.sees snap) g :=
        ⟨hsees, fun y hy hy' => hvis.2 y hy (.inl hy')⟩
      have hcover := (h.snapshots snap hsnap ⟨r, hr, hcomplete, (h.rvis_at hactive hr).mp hrvis⟩
        g hg hgvis).2 v hv
      rcases hcover with ⟨r', hr', hrvis', hcov⟩ | ⟨hrun, _⟩
      · have hmem := mem_readExtentRows.mpr ⟨hr', (h.rvis_at hactive hr').mpr hrvis'⟩
        exact (Covers.foldBounds hcmp hc (mem_map_of_mem hmem) hcov).foldMinMax_left hc
      · rw [hsees.1] at hrun
        cases hrun
    · -- a group of its own is within what it will write
      have hlock : s.lock ≠ some (s.top g.writer) := by
        rw [htop]
        exact fun hl => h.active_ne hl hactive
      rcases h.own g hg hrun hlock v hv with ⟨r', hr', hins, _⟩ | hcov
      · have htrun := (h.tops _ hrun).2
        rw [htop] at htrun hins
        have hself : s.top t = t := by
          have := (h.tops _ hrun).1
          rwa [htop] at this
        exact absurd hins (h.own_of_active hactive htrun hself hr').1
      · rw [htop] at hcov
        exact hcov.foldMinMax_right hc
  obtain ⟨p, hp, hlo, hhi⟩ := hcov
  refine ⟨p, hp, fun cmp' hcmp' => ?_⟩
  rw [hcmp] at hcmp'
  cases hcmp'
  exact ⟨hlo, hhi⟩

/-! ## Types without a comparison -/

/-- A recompute or merge for a type without a comparison sees a group with a value of the
column, or with no zone map for it. -/
def Orderable (col : ColumnDef α ε) (s : State α) : Action α → Prop
  | .replace t => col.cmp ≠ none ∨
    ∀ merge snap, (s.xact t).phase = .replace merge snap →
      ∃ g ∈ s.readRowGroupList (s.vis snap t), g.zone = none ∨ ∃ v, some v ∈ g.rows
  | _ => True

theorem allSteps_orderable (hcmp : col.cmp ≠ none) (s : State α) (acts : List (Action α)) :
    Run.AllSteps (step col) (Orderable col) s acts := by
  induction acts generalizing s with
  | nil => trivial
  | cons a acts ih =>
    refine ⟨?_, fun s' _ => ih s'⟩
    cases a with
    | replace t => exact .inl hcmp
    | _ => trivial

/-- No row is complete, and the zone maps count values without bounding them. -/
structure NoComplete (s : State α) : Prop where
  rows : ∀ r ∈ s.extents, r.complete = false
  zones : ∀ g ∈ s.groups, ∀ z ∈ g.zone, z.minMax = none ∧
    ∀ v, some v ∈ g.rows → z.valueCount ≠ 0

theorem NoComplete.recomputeColumn (h : NoComplete s) {groups : List (Group α)}
    (hsub : ∀ g ∈ groups, g ∈ s.groups)
    (hval : ∃ g ∈ groups, g.zone = none ∨ ∃ v, some v ∈ g.rows) :
    recomputeColumn col groups = none := by
  obtain ⟨g, hg, hval⟩ := hval
  unfold Extent.recomputeColumn
  dsimp only
  split
  · rfl
  · next hlen =>
    -- as many zone maps as groups, so this one has its own
    have hall := filterMap_length_eq_length.mp (Decidable.not_not.mp hlen) g hg
    obtain ⟨z, hz⟩ := Option.isSome_iff_exists.mp hall
    obtain ⟨hnone, hcount⟩ := h.zones g (hsub g hg) z hz
    refine if_pos (any_eq_true.mpr ⟨z, mem_filterMap.mpr ⟨g, hg, hz⟩, ?_⟩)
    rcases hval with hzone | ⟨v, hv⟩
    · rw [hzone] at hz
      cases hz
    · rw [hnone, decide_eq_true (hcount v hv)]
      rfl

theorem NoComplete.replacement (h : NoComplete s) {merge : Bool} {snap : Snapshot}
    (hval : ∃ g ∈ s.readRowGroupList (s.vis snap t), g.zone = none ∨ ∃ v, some v ∈ g.rows) :
    s.replacement col t merge snap = none := by
  have hrec : Extent.recomputeColumn col (s.readRowGroupList (s.vis snap t)) = none :=
    h.recomputeColumn (fun g hg => (mem_filter.mp hg).1) hval
  unfold State.replacement
  split
  · unfold mergeColumn
    rw [if_neg, hrec]
    rw [any_eq_true]
    rintro ⟨r, hr, hc⟩
    rw [h.rows r (mem_filter.mp hr).1] at hc
    cases hc
  · exact hrec

theorem NoComplete.stepPreCommit (h : NoComplete s) (hcmp : col.cmp = none)
    (hok : Orderable col s a) (ha : ∀ u, a = .replace u → u = t)
    (hs : stepPreCommit col s t a = some s') : NoComplete s' := by
  unfold Extent.stepPreCommit at hs
  split at hs
  · split at hs
    · split at hs
      · split at hs
        · cases hs
          exact ⟨h.rows, h.zones⟩
        · split at hs
          · cases hs
            exact ⟨h.rows, h.zones⟩
          · cases hs
            refine ⟨fun r hr => ?_, h.zones⟩
            rcases mem_append.mp hr with hr | hr
            · exact h.rows r hr
            · rw [mem_singleton.mp hr]
      · cases hs
    · cases hs
  · split at hs
    · split at hs
      · cases hs
        exact ⟨h.rows, h.zones⟩
      · cases hs
    · cases hs
  · split at hs
    · dsimp only at hs
      split at hs
      · cases hs
        exact ⟨h.rows, h.zones⟩
      · cases hs
        exact ⟨h.rows, h.zones⟩
    · cases hs
  · split at hs
    · split at hs
      · cases hs
        exact ⟨h.rows, h.zones⟩
      · cases hs
        exact ⟨h.rows, h.zones⟩
    · cases hs
  · next u =>
    have hu := ha u rfl
    subst hu
    split at hs
    · next merge snap hphase =>
      cases hs
      have hval := hok.resolve_left (fun hne => hne hcmp) merge snap hphase
      unfold State.replace
      rw [h.replacement hval]
      exact ⟨h.rows, h.zones⟩
    · cases hs
  · cases hs

theorem NoComplete.step (h : NoComplete s) (hcmp : col.cmp = none)
    (hok : Orderable col s a) (hs : step col s a = some s') : NoComplete s' := by
  cases a with
  | begin | takeSnapshot =>
    cases hs
    exact ⟨h.rows, h.zones⟩
  | beginSub t | commit t | abort xs =>
    simp only [Extent.step] at hs
    split at hs
    · cases hs
      exact ⟨h.rows, h.zones⟩
    · cases hs
  | append x vectors =>
    simp only [Extent.step] at hs
    split at hs
    · cases hs
      refine ⟨h.rows, fun g hg z hz => ?_⟩
      rcases mem_append.mp hg with hg | hg
      · exact h.zones g hg z hz
      · cases mem_singleton.mp hg
        cases hz
        -- the values are counted, but there is no comparison for the extremes
        refine ⟨?_, fun v hv => ?_⟩
        · show chunkMinMax col _ = none
          unfold chunkMinMax
          rw [hcmp]
        · rw [valueCount_chunkZoneOf]
          have hmem : v ∈ vectors.flatten.filterMap id := mem_filterMap.mpr ⟨some v, hv, rfl⟩
          exact (length_pos_of_mem hmem).ne'
    · cases hs
  | retire x i =>
    simp only [Extent.step] at hs
    split at hs
    · cases hs
    · next g hg =>
      split at hs
      · cases hs
        refine ⟨h.rows, fun g' hg' z hz => ?_⟩
        rcases mem_or_eq_of_mem_set hg' with hg' | rfl
        · exact h.zones g' hg' z hz
        · exact h.zones g (mem_of_getElem? hg) z hz
      · cases hs
  | hintGroup k i =>
    obtain ⟨snap, _, hs⟩ := Option.bind_eq_some_iff.mp hs
    obtain ⟨g, hg, hs⟩ := Option.bind_eq_some_iff.mp hs
    obtain ⟨_, hs⟩ := Option.ite_none_right_eq_some.mp hs
    cases hs
    refine ⟨h.rows, fun g' hg' z hz => ?_⟩
    rcases mem_or_eq_of_mem_set hg' with hg' | rfl
    · exact h.zones g' hg' z hz
    · exact h.zones g (mem_of_getElem? hg) z hz
  | hintExtent k i =>
    obtain ⟨snap, _, hs⟩ := Option.bind_eq_some_iff.mp hs
    obtain ⟨r, hr, hs⟩ := Option.bind_eq_some_iff.mp hs
    split at hs
    · cases hs
      exact ⟨fun r' hr' => h.rows r' (mem_of_mem_eraseIdx hr'), h.zones⟩
    · obtain ⟨_, hs⟩ := Option.ite_none_right_eq_some.mp hs
      cases hs
      refine ⟨fun r' hr' => ?_, h.zones⟩
      rcases mem_or_eq_of_mem_set hr' with hr' | rfl
      · exact h.rows r' hr'
      · exact h.rows r (mem_of_getElem? hr)
  | preCommit t => exact h.stepPreCommit (a := .preCommit t) hcmp hok (by nofun) hs
  | recomputeLock t => exact h.stepPreCommit (a := .recomputeLock t) hcmp hok (by nofun) hs
  | look t => exact h.stepPreCommit (a := .look t) hcmp hok (by nofun) hs
  | tryLock t => exact h.stepPreCommit (a := .tryLock t) hcmp hok (by nofun) hs
  | replace t =>
    refine h.stepPreCommit (a := .replace t) hcmp hok ?_ hs
    intro u hu
    exact (Action.replace.inj hu).symm

theorem NoComplete.extentSound (h : NoComplete s) : ExtentSound col s := by
  intro snap _ t _ b hb
  have hnone : s.extentBound col snap t = none := by
    unfold State.extentBound
    refine if_neg ?_
    rw [any_eq_true]
    rintro ⟨r, hr, hc⟩
    rw [h.rows r (mem_filter.mp hr).1] at hc
    cases hc
  rw [hnone] at hb
  cases hb

/-- **The extent bounds the column** in every state of a run in which no recompute for a type
without a comparison finds the column without values, and no snapshot leaves out a lazy
vacuum that is under way. -/
theorem extentSound_run (col : ColumnDef α ε) (htotal : ∀ cmp ∈ col.cmp, TotalCmp cmp)
    (hfast : FastCmpOk col) (lazy : ℕ → Bool) (old : List (List (Option α)))
    (acts : List (Action α)) (s : State α)
    (hok : Run.AllSteps (step col) (Orderable col) (State.init lazy old) acts)
    (hl : Run.AllSteps (step col) Listed (State.init lazy old) acts)
    (h : Run.run (step col) (State.init lazy old) acts = some s) : ExtentSound col s := by
  cases hcmp : col.cmp with
  | none =>
    have hinit : NoComplete (State.init lazy old) := by
      refine ⟨by nofun, fun g hg z hz => ?_⟩
      obtain ⟨rows, _, rfl⟩ := mem_map.mp hg
      cases hz
    exact (Run.run_invariant_of (fun _ _ _ hs hok hstep => hs.step hcmp hok hstep) hinit hok
      h).extentSound
  | some cmp =>
    have hc := htotal cmp hcmp
    have hinv : Inv cmp s := Run.run_invariant_of
      (fun _ _ _ hs hl hstep => Inv.step hs hcmp hc hfast hl hstep) (Inv.init lazy old) hl h
    exact hinv.extentSound hcmp hc

instance (s : State α) : ∀ a : Action α, Decidable (Listed s a)
  | .takeSnapshot => inferInstanceAs (Decidable (s.clock.Lists s.lazy))
  | .retire x _ => inferInstanceAs (Decidable (s.clock.Lists (s.others (s.top x))))
  | .recomputeLock t | .look t | .tryLock t =>
    inferInstanceAs (Decidable (s.clock.Lists (s.others t)))
  | .begin | .beginSub _ | .commit _ | .abort _ | .append _ _ | .preCommit _
  | .replace _ | .hintGroup _ _ | .hintExtent _ _ => isTrue trivial

/-- A group, a second one that widens the bounds, and the first one retired by the lazy
vacuum 3. -/
def int4Run : List (Action (BitVec 32)) :=
  [.begin, .append 1 [[some 5, none], [some (-3)]], .preCommit 1, .look 1, .tryLock 1, .replace 1,
    .commit 1, .begin, .append 2 [[some 9]], .preCommit 2, .look 2, .commit 2, .begin, .retire 3 0,
    .preCommit 3, .recomputeLock 3, .replace 3, .commit 3, .takeSnapshot]

theorem extentSound_run_int4 :
    ∃ s, Run.run (step int4Column) (State.init (· == 3) []) int4Run = some s ∧
      s.extentBound int4Column s.clock.latest 0 = some (some (9, 9)) ∧
      ExtentSound int4Column s := by
  have hrun : (Run.run (step int4Column) (State.init (· == 3) []) int4Run).map
      (fun s => s.extentBound int4Column s.clock.latest 0) = some (some (some (9, 9))) := by
    decide +kernel
  obtain ⟨s, hs, hbound⟩ := Option.map_eq_some_iff.mp hrun
  have hkey : ∀ cmp ∈ int4Column.cmp, ∀ a b, (cmp a b).sign = (a.toInt - b.toInt).sign := by
    intro cmp hcmp a b
    cases hcmp
    exact btintCmp_sign _ _
  refine ⟨s, hs, hbound, extentSound_run int4Column
    (fun cmp hcmp => totalCmp_of_key (hkey cmp hcmp))
    ?_ (· == 3) [] int4Run s (allSteps_orderable (by nofun) _ _) (by decide +kernel) hs⟩
  intro key hk cmp hcmp a b
  cases hk
  exact hkey cmp hcmp a b

/-- A column of a type without a btree comparison, as `json`, whose values here are those of
`int4`. -/
def jsonColumn : ColumnDef (BitVec 32) Unit where
  codec := int4Codec
  cmp := none
  fastCmp := none
  range := none

/-- The only group of the table is retired, and after that a value is written. -/
def jsonRun : List (Action (BitVec 32)) :=
  [.begin, .append 1 [[some 5]], .preCommit 1, .commit 1, .begin, .retire 2 0, .preCommit 2,
    .recomputeLock 2, .replace 2, .commit 2, .begin, .append 3 [[some 7]], .preCommit 3, .commit 3,
    .takeSnapshot]

/-- The snapshot sees a complete row without bounds, and the value 7. -/
theorem not_extentSound_json :
    ∃ s, Run.run (step jsonColumn) (State.init (fun _ => false) []) jsonRun = some s ∧
      s.extentBound jsonColumn s.clock.latest 0 = some none ∧ ¬ ExtentSound jsonColumn s := by
  have hrun : (Run.run (step jsonColumn) (State.init (fun _ => false) []) jsonRun).map
      (fun s => (s.extentBound jsonColumn s.clock.latest 0,
        (s.readRowGroupList (s.vis s.clock.latest 0)).map (·.rows),
        decide (s.clock.latest ∈ s.clock.snapshots), decide ((s.xact 0).phase = .active))) =
      some (some none, [[some 7]], true, true) := by
    decide +kernel
  obtain ⟨s, hs, heq⟩ := Option.map_eq_some_iff.mp hrun
  simp only [Prod.mk.injEq, decide_eq_true_eq] at heq
  obtain ⟨hbound, hrows, hsnap, hactive⟩ := heq
  refine ⟨s, hs, hbound, fun hsound => ?_⟩
  have hmem : [some 7] ∈ (s.readRowGroupList (s.vis s.clock.latest 0)).map (·.rows) := by
    rw [hrows]
    exact mem_singleton.mpr rfl
  obtain ⟨g, hg, hgrows⟩ := mem_map.mp hmem
  obtain ⟨p, hp, _⟩ := hsound _ hsnap 0 hactive none hbound g hg 7
    (hgrows ▸ mem_singleton.mpr rfl)
  cases hp

end PgColumnar.Extent
