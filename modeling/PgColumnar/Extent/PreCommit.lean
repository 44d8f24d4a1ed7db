import PgColumnar.Extent.Groups

/-!
# The pre-commit

A transaction writes its row, or sets it aside for a recompute; under the lock it replaces
the rows its snapshot sees by one complete row, or refuses.  When it refuses although it
set its row aside, no view that contains the transaction has a complete row: the group
that could not be bounded is visible together with it.

## Main results

* `Inv.write`, `Inv.refuse` — a recompute or merge writes its row, or refuses.
* `Inv.not_complete` — only with the lock a transaction has a complete row.
-/

namespace PgColumnar.Extent

open Mvcc Zone Compare List Function

variable {α ε : Type} {cmp : α → α → ℤ} {s : State α} {W : ℕ → Prop} {t : ℕ}

/-! ## The phases before the lock -/

theorem setXact_self (x : Xact α) : (s.setXact t x).xact t = x := update_self _ _ _

theorem setXact_of_ne {u : ℕ} (hu : u ≠ t) (x : Xact α) : (s.setXact t x).xact u = s.xact u :=
  update_of_ne hu _ _

/-- A transaction that goes on with its pre-commit is not less restricted. -/
theorem IsView.setXact {x : Xact α} (hW : IsView (s.setXact t x) W) (hx : x.phase ≠ .active) :
    IsView s W :=
  ⟨hW.committed, hW.live, hW.up, fun y hrun htop hp => hW.full y hrun htop (by
    by_cases hy : s.top y = t
    · rw [show (s.setXact t x).top = s.top from rfl, hy, setXact_self]
      exact hx
    · rw [show (s.setXact t x).top = s.top from rfl, setXact_of_ne hy]
      exact hp)⟩

variable {r : ExtentRow α}

/-- The rows of a transaction without the lock are not complete and delete nothing. -/
theorem Inv.not_complete (h : Inv cmp s) (hrun : s.clock.status t = .running)
    (hlock : s.lock ≠ some t) (hr : r ∈ s.extents) :
    (r.complete = true → r.inserter ≠ t) ∧ ∀ y ∈ r.deleter, y ≠ t := by
  constructor
  · intro hc heq
    subst heq
    exact hlock (h.completes r hr hc hrun).1
  · intro y hy heq
    subst heq
    exact hlock (h.deleters r hr y hy hrun).1

/-- Only the transaction itself has gone on. -/
theorem Inv.phases_of (h : Inv cmp s) {f : ℕ → Xact α} (hrun : s.clock.status t = .running)
    (htop : s.top t = t) (hf : ∀ u, u ≠ t → f u = s.xact u) (u : ℕ) (hu : (f u).phase ≠ .active) :
    s.clock.status u = .running ∧ s.top u = u := by
  by_cases hut : u = t
  · subst hut
    exact ⟨hrun, htop⟩
  · rw [hf u hut] at hu
    exact h.phases u hu

/-- A state with the same groups and rows whose transactions have the same rows to write. -/
theorem Sound.of_pending {s' : State α} (hsound : Sound cmp s W) (hgroups : s'.groups = s.groups)
    (hextents : s'.extents = s.extents)
    (hpend : ∀ g : Group α, s.clock.status g.writer = .running → W g.writer →
      s'.clock.status g.writer = .running ∧
        (s'.xact (s'.top g.writer)).pending = (s.xact (s.top g.writer)).pending) :
    Sound cmp s' W := by
  intro hcomplete g hg hvis
  rw [hextents] at hcomplete
  rw [hgroups] at hg
  obtain ⟨hzone, hcover⟩ := hsound hcomplete g hg hvis
  refine ⟨hzone, fun v hv => (hcover v hv).imp ?_ fun hcov => ?_⟩
  · rw [hextents]
    exact id
  · obtain ⟨hrun, hpend⟩ := hpend g hcov.1 hvis.1
    exact ⟨hrun, hpend ▸ hcov.2⟩

section SetPhase

variable {p : Phase}

theorem setPhase_pending (u : ℕ) :
    ((s.setXact t { s.xact t with phase := p }).xact u).pending = (s.xact u).pending := by
  by_cases hu : u = t
  · subst hu
    rw [setXact_self]
  · rw [setXact_of_ne hu]

theorem Sound.setPhase (hsound : Sound cmp s W) :
    Sound cmp (s.setXact t { s.xact t with phase := p }) W :=
  hsound.of_pending rfl rfl fun _ hrun _ => ⟨hrun, setPhase_pending _⟩

/-- A transaction without the lock goes on with its pre-commit. -/
theorem Inv.setPhase (h : Inv cmp s) (hrun : s.clock.status t = .running) (htop : s.top t = t)
    (hlock : s.lock ≠ some t) (hactive : p ≠ .active)
    (hreplace : ∀ merge snap, p ≠ .replace merge snap)
    (hpend : p ≠ .recompute → (s.xact t).pending = none) :
    Inv cmp (s.setXact t { s.xact t with phase := p }) := by
  refine
    { h with
      phases := h.phases_of hrun htop fun _ hu => setXact_of_ne hu _
      locked := ?_, replacing := ?_, pending := ?_, inserters := ?_, completes := ?_, deleters := ?_
      own := ?_, views := ?_, snapshots := ?_, computing := ?_ }
  · intro u hu
    have hut : u ≠ t := fun heq => hlock (heq ▸ hu)
    rw [setXact_of_ne hut]
    exact h.locked u hu
  · intro u merge snap hu
    by_cases hut : u = t
    · subst hut
      rw [setXact_self] at hu
      exact absurd hu (hreplace merge snap)
    · rw [setXact_of_ne hut] at hu
      exact h.replacing u merge snap hu
  · intro u hu hrec hrep
    rw [setPhase_pending]
    by_cases hut : u = t
    · subst hut
      rw [setXact_self] at hrec
      exact hpend hrec
    · rw [setXact_of_ne hut] at hu hrec hrep
      exact h.pending u hu hrec hrep
  · intro r hr hrun'
    obtain ⟨htop', hphase⟩ := h.inserters r hr hrun'
    refine ⟨htop', ?_⟩
    by_cases hut : r.inserter = t
    · rw [hut, setXact_self]
      exact hactive
    · rw [setXact_of_ne hut]
      exact hphase
  · intro r hr hc hrun'
    rw [setXact_of_ne ((h.not_complete hrun hlock hr).1 hc)]
    exact h.completes r hr hc hrun'
  · intro r hr y hy hrun'
    rw [setXact_of_ne ((h.not_complete hrun hlock hr).2 y hy)]
    exact h.deleters r hr y hy hrun'
  · intro g hg hrun' hlock' v hv
    refine (h.own g hg hrun' hlock' v hv).imp id fun hcov => ?_
    rw [setPhase_pending]
    exact hcov
  · intro W hW
    exact (h.views W (hW.setXact hactive)).setPhase
  · intro snap hsnap
    exact (h.snapshots snap hsnap).setPhase
  · intro u merge snap hphase
    by_cases hut : u = t
    · subst hut
      rw [setXact_self] at hphase
      exact absurd hphase (hreplace merge snap)
    · rw [setXact_of_ne hut] at hphase
      have hl := h.computing u merge snap hphase
      exact ⟨hl.held, hl.sound.setPhase, hl.complete, hl.deleters, hl.later⟩

end SetPhase

/-! ## The row of the transaction -/

section WriteRow

variable {p : α × α}

/-- The state after the transaction has written its row. -/
def State.rowWritten (s : State α) (t : ℕ) (p : α × α) : State α :=
  { s.setXact t ⟨none, false, .look⟩ with extents := s.extents ++ [⟨false, some p, t, none⟩] }

theorem rowWritten_xact_self : (s.rowWritten t p).xact t = ⟨none, false, .look⟩ :=
  setXact_self _

theorem rowWritten_xact {u : ℕ} (hu : u ≠ t) : (s.rowWritten t p).xact u = s.xact u :=
  setXact_of_ne hu _

/-- What the transaction would write is written; for a set that contains the transaction
with its subtransactions. -/
theorem Sound.rowWritten (hsound : Sound cmp s W) (hpend : (s.xact t).pending = some p)
    (hup : ∀ x, s.clock.status x = .running → W x → s.top x = t → W t) :
    Sound cmp (s.rowWritten t p) W := by
  rintro ⟨r, hr, hc, hrvis⟩ g hg hvis
  have hold : ∃ r ∈ s.extents, r.complete = true ∧ RVis W r := by
    rcases mem_append.mp hr with hr | hr
    · exact ⟨r, hr, hc, hrvis⟩
    · rw [mem_singleton.mp hr] at hc
      cases hc
  obtain ⟨hzone, hcover⟩ := hsound hold g hg hvis
  refine ⟨hzone, fun v hv => ?_⟩
  rcases hcover v hv with ⟨r', hr', hrest⟩ | ⟨hrun, hcov⟩
  · exact .inl ⟨r', mem_append_left _ hr', hrest⟩
  · by_cases htop : s.top g.writer = t
    · rw [htop, hpend] at hcov
      refine .inl ⟨⟨false, some p, t, none⟩, mem_append_right _ (mem_singleton.mpr rfl),
        ⟨hup _ hrun hvis.1 htop, by nofun⟩, hcov⟩
    · refine .inr ⟨hrun, ?_⟩
      rw [show (s.rowWritten t p).top = s.top from rfl, rowWritten_xact htop]
      exact hcov

theorem Inv.writeRow (h : Inv cmp s) (hrun : s.clock.status t = .running) (htop : s.top t = t)
    (hactive : (s.xact t).phase = .active) (hpend : (s.xact t).pending = some p) :
    Inv cmp (s.rowWritten t p) := by
  have hlock : s.lock ≠ some t := fun heq => h.active_ne heq hactive
  refine
    { h with
      phases := h.phases_of hrun htop fun _ hu => rowWritten_xact hu
      usedRows := ?_, locked := ?_, replacing := ?_, pending := ?_, inserters := ?_, completes := ?_
      deleters := ?_, own := ?_, views := ?_, snapshots := ?_, computing := ?_ }
  · refine forall_mem_append.mpr ⟨h.usedRows, forall_mem_singleton.mpr ?_⟩
    exact ⟨by rw [show (s.rowWritten t p).clock = s.clock from rfl, hrun]; nofun, by nofun⟩
  · intro u hu
    have hut : u ≠ t := fun heq => hlock (heq ▸ hu)
    rw [rowWritten_xact hut]
    exact h.locked u hu
  · intro u merge snap hu
    have hut : u ≠ t := by
      rintro rfl
      rw [rowWritten_xact_self] at hu
      cases hu
    rw [rowWritten_xact hut] at hu
    exact h.replacing u merge snap hu
  · intro u hu hrec hrep
    by_cases hut : u = t
    · subst hut
      rw [rowWritten_xact_self]
    · rw [rowWritten_xact hut] at hu hrec hrep ⊢
      exact h.pending u hu hrec hrep
  · intro r hr hrun'
    rcases mem_append.mp hr with hr | hr
    · obtain ⟨htop', hp⟩ := h.inserters r hr hrun'
      have hut : r.inserter ≠ t := fun heq => hp (heq ▸ hactive)
      rw [rowWritten_xact hut]
      exact ⟨htop', hp⟩
    · rw [mem_singleton.mp hr, rowWritten_xact_self]
      exact ⟨htop, by nofun⟩
  · intro r hr hc hrun'
    rcases mem_append.mp hr with hr | hr
    · rw [rowWritten_xact ((h.not_complete hrun hlock hr).1 hc)]
      exact h.completes r hr hc hrun'
    · rw [mem_singleton.mp hr] at hc
      cases hc
  · intro r hr y hy hrun'
    rcases mem_append.mp hr with hr | hr
    · rw [rowWritten_xact ((h.not_complete hrun hlock hr).2 y hy)]
      exact h.deleters r hr y hy hrun'
    · rw [mem_singleton.mp hr] at hy
      cases hy
  · intro g hg hrun' hlock' v hv
    rcases h.own g hg hrun' hlock' v hv with ⟨r, hr, hrest⟩ | hcov
    · exact .inl ⟨r, mem_append_left _ hr, hrest⟩
    · -- what was pending is in the row that has been written
      by_cases hgt : s.top g.writer = t
      · rw [hgt, hpend] at hcov
        refine .inl ⟨⟨false, some p, t, none⟩, mem_append_right _ (mem_singleton.mpr rfl),
          hgt.symm, by nofun, hcov⟩
      · right
        rw [show (s.rowWritten t p).top = s.top from rfl, rowWritten_xact hgt]
        exact hcov
  · intro W hW
    have hW' : IsView s W := IsView.setXact (x := ⟨none, false, .look⟩)
      ⟨hW.committed, hW.live, hW.up, hW.full⟩ (by nofun)
    refine (h.views W hW').rowWritten hpend fun x hx hWx hxt => ?_
    rw [← hxt]
    exact hW.up x hx hWx
  · intro snap hsnap
    refine (h.snapshots snap hsnap).rowWritten hpend fun x hx hsees _ => ?_
    rw [hsees.1] at hx
    cases hx
  · intro u merge snap hphase'
    have hut : u ≠ t := by
      rintro rfl
      rw [rowWritten_xact_self] at hphase'
      cases hphase'
    rw [rowWritten_xact hut] at hphase'
    have hl := h.computing u merge snap hphase'
    refine ⟨hl.held, ?_, ?_, ?_, ?_⟩
    · refine hl.sound.rowWritten hpend fun x hx hat hxt => ?_
      exact absurd ((hat.top hx).symm.trans hxt) hut
    · refine forall_mem_append.mpr ⟨hl.complete, forall_mem_singleton.mpr ?_⟩
      intro hc hcom
      cases hc
    · refine forall_mem_append.mpr ⟨hl.deleters, forall_mem_singleton.mpr ?_⟩
      intro y hy hcom
      cases hy
    · intro g hg hcom hnot
      obtain ⟨hzone, hcover⟩ := hl.later g hg hcom hnot
      refine ⟨hzone, fun v hv => ?_⟩
      obtain ⟨r, hr, hrest⟩ := hcover v hv
      exact ⟨r, mem_append_left _ hr, hrest⟩

end WriteRow

/-! ## The lock -/

theorem takeLock_xact_self {merge : Bool} :
    (s.takeLock t merge).xact t =
      { s.xact t with phase := .replace merge (s.clock.latestBut (s.others t)) } :=
  update_self _ _ _

theorem takeLock_xact {merge : Bool} {u : ℕ} (hu : u ≠ t) :
    (s.takeLock t merge).xact u = s.xact u :=
  update_of_ne hu _ _

theorem takeLock_pending {merge : Bool} (u : ℕ) :
    ((s.takeLock t merge).xact u).pending = (s.xact u).pending := by
  by_cases hu : u = t
  · subst hu
    rw [takeLock_xact_self]
  · rw [takeLock_xact hu]

theorem Sound.takeLock (hsound : Sound cmp s W) (t : ℕ) (merge : Bool) :
    Sound cmp (s.takeLock t merge) W :=
  hsound.of_pending rfl rfl fun _ hrun _ => ⟨hrun, takeLock_pending _⟩

/-- Nobody holds the lock, so nobody else is replacing rows. -/
theorem Inv.takeLock (h : Inv cmp s) (hl : s.clock.Lists (s.others t))
    (hphase : (s.xact t).phase ≠ .active) (hfree : s.lock = none)
    {merge : Bool} (hmerge : merge = true → (s.xact t).pending = none) :
    Inv cmp (s.takeLock t merge) := by
  obtain ⟨hrun, htop⟩ := h.phases t hphase
  have hlock : s.lock ≠ some t := by
    rw [hfree]
    nofun
  -- the snapshot leaves nobody out, so it sees exactly what has committed
  have hsees : ∀ x, s.clock.sees (s.clock.latestBut (s.others t)) x ↔
      s.clock.status x = .committed := fun x => Clock.sees_latestBut h.clock _
  have hclock : (s.takeLock t merge).clock.Wf := by
    rw [show (s.takeLock t merge).clock = _ from Clock.takeSnapshotBut_eq hl]
    exact h.clock.step .takeSnapshot
  refine
    { h with
      clock := hclock
      phases := h.phases_of hrun htop fun _ hu => takeLock_xact hu
      locked := ?_, replacing := ?_, pending := ?_, inserters := ?_, completes := ?_, deleters := ?_
      own := ?_, views := ?_, snapshots := ?_, computing := ?_ }
  · intro u hu
    cases hu
    rw [takeLock_xact_self]
    exact ⟨hrun, htop, .inr ⟨_, _, rfl⟩⟩
  · intro u merge' snap hu
    by_cases hut : u = t
    · rw [hut]
      rfl
    · rw [takeLock_xact hut] at hu
      exact absurd (h.replacing u merge' snap hu) (by rw [hfree]; nofun)
  · intro u hu hrec hrep
    rw [takeLock_pending]
    by_cases hut : u = t
    · subst hut
      rw [takeLock_xact_self] at hrep
      cases merge with
      | true => exact hmerge rfl
      | false => exact absurd rfl (hrep _)
    · rw [takeLock_xact hut] at hu hrec hrep
      exact h.pending u hu hrec hrep
  · intro r hr hrun'
    obtain ⟨htop', hp⟩ := h.inserters r hr hrun'
    refine ⟨htop', ?_⟩
    by_cases hut : r.inserter = t
    · rw [hut, takeLock_xact_self]
      nofun
    · rw [takeLock_xact hut]
      exact hp
  · intro r hr hc hrun'
    exact absurd (h.completes r hr hc hrun').1 (by rw [hfree]; nofun)
  · intro r hr y hy hrun'
    exact absurd (h.deleters r hr y hy hrun').1 (by rw [hfree]; nofun)
  · intro g hg hrun' _ v hv
    refine (h.own g hg hrun' (by rw [hfree]; nofun) v hv).imp id fun hcov => ?_
    rw [takeLock_pending]
    exact hcov
  · intro W hW
    refine (h.views W ⟨hW.committed, hW.live, hW.up, fun x hx ht hp => ?_⟩).takeLock t merge
    refine hW.full x hx ht ?_
    rw [show (s.takeLock t merge).top = s.top from rfl]
    by_cases hut : s.top x = t
    · rw [hut, takeLock_xact_self]
      nofun
    · rw [takeLock_xact hut]
      exact hp
  · intro snap hsnap
    rcases mem_append.mp hsnap with hsnap | hsnap
    · exact (h.snapshots snap hsnap).takeLock t merge
    · rw [mem_singleton.mp hsnap]
      have heq : s.clock.sees (s.clock.latestBut (s.others t)) =
          fun x => s.clock.status x = .committed :=
        funext fun x => propext (hsees x)
      have hsound := (h.views _ h.isView_committed).takeLock t merge
      rw [← heq] at hsound
      exact hsound
  · intro u merge' snap hu
    by_cases hut : u = t
    · subst hut
      rw [takeLock_xact_self] at hu
      cases hu
      refine ⟨mem_append_right _ (mem_singleton.mpr rfl), ?_, ?_, ?_, ?_⟩
      · -- what the recompute reads is what has committed and its own transaction: a view
        have heq : At s (s.clock.latestBut (s.others u)) u = fun x => s.clock.status x = .committed ∨
            s.clock.status x = .running ∧ s.top x = u :=
          funext fun x => propext (or_congr (hsees x) Iff.rfl)
        have hsound := (h.views _ (h.isView_own hrun htop)).takeLock u merge
        rw [← heq] at hsound
        exact hsound
      · exact fun r _ _ hcom => (hsees r.inserter).mpr hcom
      · exact fun r _ y _ hcom => (hsees y).mpr hcom
      · exact fun g _ hcom hnot => absurd ((hsees g.writer).mpr hcom) hnot
    · rw [takeLock_xact hut] at hu
      exact absurd (h.replacing u merge' snap hu) (by rw [hfree]; nofun)

/-! ## The recompute or merge -/

theorem vis_iff {snap : Snapshot} {x : ℕ} : s.vis snap t x = true ↔ At s snap t x := by
  simp [State.vis, State.own, At]

theorem group_visible_iff {vis : ℕ → Bool} {g : Group α} :
    g.visible vis = true ↔ GVis (fun x => vis x = true) g := by
  simp [Group.visible, GVis, Option.any_eq_false]

theorem row_visible_iff {vis : ℕ → Bool} :
    r.visible vis = true ↔ RVis (fun x => vis x = true) r := by
  simp [ExtentRow.visible, RVis, Option.any_eq_false]

theorem mem_readRowGroupList {snap : Snapshot} {g : Group α} :
    g ∈ s.readRowGroupList (s.vis snap t) ↔ g ∈ s.groups ∧ GVis (At s snap t) g := by
  rw [State.readRowGroupList, mem_filter, group_visible_iff]
  simp only [vis_iff]

theorem row_visible_vis {snap : Snapshot} :
    r.visible (s.vis snap t) = true ↔ RVis (At s snap t) r := by
  rw [row_visible_iff]
  simp only [vis_iff]

theorem mem_readExtentRows {snap : Snapshot} :
    r ∈ s.readExtentRows (s.vis snap t) ↔ r ∈ s.extents ∧ RVis (At s snap t) r := by
  rw [State.readExtentRows, mem_filter, row_visible_vis]

section Recompute

variable {col : ColumnDef α ε} {groups : List (Group α)} {bounds : Option (α × α)}

/-- A recompute over groups with proper zone maps succeeds. -/
theorem recomputeColumn_ne_none (hz : ∀ g ∈ groups, g.Zoned cmp) :
    recomputeColumn col groups ≠ none := by
  have hlen : (groups.filterMap (·.zone)).length = groups.length := by
    rw [filterMap_length_eq_length]
    intro g hg
    obtain ⟨z, hz, _⟩ := hz g hg
    rw [hz]
    rfl
  have hany : ((groups.filterMap (·.zone)).any fun z =>
      z.minMax.isNone && decide (z.valueCount ≠ 0)) = false := by
    rw [any_eq_false]
    intro z hzmem
    obtain ⟨g, hg, hgz⟩ := mem_filterMap.mp hzmem
    obtain ⟨z', hz', hcount, _⟩ := hz g hg
    rw [hz'] at hgz
    cases hgz
    cases hm : z.minMax with
    | none => simp [hcount hm]
    | some p => simp
  unfold recomputeColumn
  rw [if_neg (not_not.mpr hlen), hany]
  nofun

/-- A recompute that succeeds found a zone map for every group, and bounds them all. -/
theorem recomputeColumn_eq_some (hcmp : col.cmp = some cmp) (hc : TotalCmp cmp)
    (hr : recomputeColumn col groups = some bounds) {g : Group α} (hg : g ∈ groups) :
    g.zone ≠ none ∧ (g.Zoned cmp → ∀ v, some v ∈ g.rows → Covers cmp bounds v) := by
  unfold recomputeColumn at hr
  dsimp only at hr
  obtain ⟨hlen, hr⟩ := Option.ite_none_left_eq_some.mp hr
  have hall := filterMap_length_eq_length.mp (not_not.mp hlen)
  split_ifs at hr
  cases hr
  constructor
  · intro hnone
    have := hall g hg
    rw [hnone] at this
    cases this
  · intro hz v hv
    obtain ⟨z, hz, _, hcov⟩ := hz
    refine Covers.foldBounds hcmp hc (b := z.minMax) ?_ (hcov v hv)
    exact mem_map_of_mem (mem_filterMap.mpr ⟨g, hg, hz⟩)

end Recompute

section Replace

variable {col : ColumnDef α ε} {merge : Bool} {snap : Snapshot} {bounds : Option (α × α)}

/-- The set the holder of the lock sees is within every view that contains the holder. -/
theorem IsView.of_at (hW : IsView s W) (ht : W t) (hphase : (s.xact t).phase ≠ .active) {x : ℕ}
    (hx : At s snap t x) : W x := by
  rcases hx with hx | ⟨hrun, htop⟩
  · exact hW.committed x hx.1
  · exact hW.full x hrun (by rw [htop]; exact ht) (by rw [htop]; exact hphase)

theorem Inv.zoned_of_ne (h : Inv cmp s) {g : Group α} (hg : g ∈ s.groups) (hz : g.zone ≠ none) :
    g.Zoned cmp := (h.zoned g hg).resolve_left fun hnone => hz hnone.1

variable {r : ExtentRow α}

/-- What is refused could not be bounded: no complete row was visible. -/
theorem Inv.no_complete_of_refuse (h : Inv cmp s) (hphase : (s.xact t).phase = .replace merge snap)
    (hrefuse : s.replacement col t merge snap = none) (hr : r ∈ s.extents)
    (hc : r.complete = true) : ¬ RVis (At s snap t) r := by
  intro hvis
  have hl := h.computing t merge snap hphase
  have hall := hl.sound ⟨r, hr, hc, hvis⟩
  have hzoned : ∀ g ∈ s.readRowGroupList (s.vis snap t), g.Zoned cmp := by
    intro g hg
    obtain ⟨hg, hgvis⟩ := mem_readRowGroupList.mp hg
    exact h.zoned_of_ne hg (hall g hg hgvis).1
  have hrec : recomputeColumn col (s.readRowGroupList (s.vis snap t)) ≠ none :=
    recomputeColumn_ne_none hzoned
  unfold State.replacement at hrefuse
  split at hrefuse
  · unfold mergeColumn at hrefuse
    have hany : ((s.readExtentRows (s.vis snap t)).any (·.complete)) = true :=
      any_eq_true.mpr ⟨r, mem_readExtentRows.mpr ⟨hr, hvis⟩, hc⟩
    rw [if_pos hany] at hrefuse
    cases hrefuse
  · exact hrec hrefuse

/-- A complete row in a view that contains the holder of the lock is one the holder sees. -/
theorem Inv.complete_at (h : Inv cmp s) (hphase : (s.xact t).phase = .replace merge snap)
    (hW : IsView s W) (ht : W t) (hr : r ∈ s.extents) (hc : r.complete = true)
    (hvis : RVis W r) : RVis (At s snap t) r := by
  have hactive : (s.xact t).phase ≠ .active := by
    rw [hphase]
    nofun
  refine ⟨.inl ?_, fun y hy hat => hvis.2 y hy (hW.of_at ht hactive hat)⟩
  rcases hW.live _ hvis.1 with hcom | hrun
  · exact (h.computing t merge snap hphase).complete r hr hc hcom
  · -- a running one would be the holder itself, which has not written yet
    obtain ⟨hlock, hdone⟩ := h.completes r hr hc hrun
    rw [h.replacing t merge snap hphase] at hlock
    rw [← Option.some.inj hlock, hphase] at hdone
    cases hdone

/-- For a set without groups of the transaction its memory does not matter. -/
theorem Sound.setDone (hsound : Sound cmp s W)
    (hnot : ∀ x, s.clock.status x = .running → W x → s.top x ≠ t) :
    Sound cmp (s.setXact t ⟨none, false, .done⟩) W :=
  hsound.of_pending rfl rfl fun g hrun hW =>
    ⟨hrun, congrArg Xact.pending (setXact_of_ne (hnot g.writer hrun hW) _)⟩

variable {rows : List (ExtentRow α)}

/-- The parts of the invariant that do not depend on the rows. -/
theorem Inv.setDone (h : Inv cmp s) (hphase : (s.xact t).phase = .replace merge snap)
    (hused : ∀ r ∈ rows, s.clock.status r.inserter ≠ .unused ∧
      ∀ y ∈ r.deleter, s.clock.status y ≠ .unused)
    (hins : ∀ r ∈ rows, s.clock.status r.inserter = .running →
      s.top r.inserter = r.inserter ∧ (r.inserter = t ∨ (s.xact r.inserter).phase ≠ .active))
    (hcomp : ∀ r ∈ rows, r.complete = true → s.clock.status r.inserter = .running →
      r.inserter = t)
    (hdel : ∀ r ∈ rows, ∀ y ∈ r.deleter, s.clock.status y = .running → y = t)
    (hown : ∀ g ∈ s.groups, s.clock.status g.writer = .running → s.top g.writer ≠ t →
      ∀ v, some v ∈ g.rows →
        OwnCover cmp { s.setXact t ⟨none, false, .done⟩ with extents := rows } g v)
    (hviews : ∀ W, IsView s W →
      Sound cmp { s.setXact t ⟨none, false, .done⟩ with extents := rows } W)
    (hsnaps : ∀ snap ∈ s.clock.snapshots,
      Sound cmp { s.setXact t ⟨none, false, .done⟩ with extents := rows } (s.clock.sees snap)) :
    Inv cmp { s.setXact t ⟨none, false, .done⟩ with extents := rows } := by
  have hlock := h.replacing t merge snap hphase
  obtain ⟨hrun, htop, _⟩ := h.locked t hlock
  have hxact : ∀ u, u ≠ t →
      ({ s.setXact t ⟨none, false, .done⟩ with extents := rows } : State α).xact u = s.xact u :=
    fun u hu => setXact_of_ne hu _
  have hself : ({ s.setXact t ⟨none, false, .done⟩ with extents := rows } : State α).xact t =
      ⟨none, false, .done⟩ := setXact_self _
  refine
    { h with
      usedRows := hused, phases := h.phases_of hrun htop hxact, snapshots := hsnaps
      locked := ?_, replacing := ?_, pending := ?_, inserters := ?_, completes := ?_, deleters := ?_
      own := ?_, views := ?_, computing := ?_ }
  · intro u hu
    -- `t` has the lock, and nobody else
    have hut : u = t := (Option.some.inj (hlock.symm.trans hu)).symm
    subst hut
    exact ⟨hrun, htop, .inl (by rw [hself])⟩
  · intro u merge' snap' hu
    by_cases hut : u = t
    · subst hut
      rw [hself] at hu
      cases hu
    · rw [hxact u hut] at hu
      exact h.replacing u merge' snap' hu
  · intro u hu hrec hrep
    by_cases hut : u = t
    · subst hut
      rw [hself]
    · rw [hxact u hut] at hu hrec hrep ⊢
      exact h.pending u hu hrec hrep
  · intro r hr hrun'
    obtain ⟨htop', hcases⟩ := hins r hr hrun'
    refine ⟨htop', ?_⟩
    by_cases hut : r.inserter = t
    · rw [hut, hself]
      nofun
    · rw [hxact _ hut]
      exact hcases.resolve_left hut
  · intro r hr hc hrun'
    rw [hcomp r hr hc hrun', hself]
    exact ⟨hlock, rfl⟩
  · intro r hr y hy hrun'
    rw [hdel r hr y hy hrun', hself]
    exact ⟨hlock, rfl⟩
  · intro g hg hrun' hlock' v hv
    refine hown g hg hrun' (fun heq => hlock' ?_) v hv
    rw [show ({ s.setXact t ⟨none, false, .done⟩ with extents := rows } : State α).top =
      s.top from rfl,
      heq]
    exact hlock
  · intro W hW
    refine hviews W (IsView.setXact (x := ⟨none, false, .done⟩) (t := t) ?_ (by nofun))
    exact ⟨hW.committed, hW.live, hW.up, hW.full⟩
  · intro u merge' snap' hu
    by_cases hut : u = t
    · subst hut
      rw [hself] at hu
      cases hu
    · rw [hxact u hut] at hu
      have := h.replacing u merge' snap' hu
      rw [hlock] at this
      exact absurd (Option.some.inj this).symm hut

/-- The recompute refuses. -/
theorem Inv.refuse (h : Inv cmp s) (hphase : (s.xact t).phase = .replace merge snap)
    (hrefuse : s.replacement col t merge snap = none) :
    Inv cmp (s.setXact t ⟨none, false, .done⟩) := by
  have hlock := h.replacing t merge snap hphase
  refine h.setDone hphase h.usedRows ?_ ?_ ?_ ?_ ?_ ?_
  · intro r hr hrun
    exact (h.inserters r hr hrun).imp id .inr
  · intro r hr hc hrun
    have hl := (h.completes r hr hc hrun).1
    rw [hlock] at hl
    exact (Option.some.inj hl).symm
  · intro r hr y hy hrun
    have hl := (h.deleters r hr y hy hrun).1
    rw [hlock] at hl
    exact (Option.some.inj hl).symm
  · intro g hg hrun hne v hv
    refine (h.own g hg hrun ?_ v hv).imp id fun hcov => ?_
    · rw [hlock]
      exact fun heq => hne (Option.some.inj heq).symm
    · show Covers cmp ((s.setXact t ⟨none, false, .done⟩).xact (s.top g.writer)).pending v
      rw [setXact_of_ne hne]
      exact hcov
  · intro W hW
    by_cases ht : W t
    · rintro ⟨r, hr, hc, hvis⟩
      exact absurd (h.complete_at hphase hW ht hr hc hvis)
        (h.no_complete_of_refuse hphase hrefuse hr hc)
    · refine (h.views W hW).setDone fun x hx hWx heq => ht ?_
      rw [← heq]
      exact hW.up x hx hWx
  · intro snap' hsnap
    refine (h.snapshots snap' hsnap).setDone fun x hx hsees _ => ?_
    rw [hsees.1] at hx
    cases hx

/-! ### A complete row is written -/

/-- The row as it is after the replacement. -/
def replaced (vis : ℕ → Bool) (t : ℕ) (r : ExtentRow α) : ExtentRow α :=
  if r.visible vis then { r with deleter := some t } else r

variable {vis : ℕ → Bool}

theorem mem_replaceRows :
    r ∈ replaceRows vis t bounds rows ↔
      (∃ r₀ ∈ rows, replaced vis t r₀ = r) ∨ r = ⟨true, bounds, t, none⟩ := by
  unfold replaceRows replaced
  rw [mem_append, mem_map, mem_singleton]

theorem replaced_spec (r : ExtentRow α) : (replaced vis t r).inserter = r.inserter ∧
    (replaced vis t r).bounds = r.bounds ∧ (replaced vis t r).complete = r.complete ∧
    ((replaced vis t r).deleter = some t ∨ (replaced vis t r).deleter = r.deleter) := by
  unfold replaced
  split
  · exact ⟨rfl, rfl, rfl, .inl rfl⟩
  · exact ⟨rfl, rfl, rfl, .inr rfl⟩

/-- For a set without the holder of the lock, a row is as visible as before. -/
theorem Inv.replaced_iff (h : Inv cmp s) (hphase : (s.xact t).phase = .replace merge snap)
    (hlive : ∀ y, W y → s.clock.status y = .committed ∨ s.clock.status y = .running)
    (ht : ¬ W t) (hr : r ∈ s.extents) :
    RVis W (replaced (s.vis snap t) t r) ↔ RVis W r := by
  have hl := h.computing t merge snap hphase
  unfold replaced
  split
  · next hvis =>
    have hvis := row_visible_vis.mp hvis
    refine and_congr Iff.rfl ⟨fun _ y hy hWy => ?_, fun _ y hy hWy => ?_⟩
    · -- a deletion that the holder does not see was given up
      rcases hlive y hWy with hcom | hrun
      · exact hvis.2 y hy (.inl (hl.deleters r hr y hy hcom))
      · have hlock := (h.deleters r hr y hy hrun).1
        rw [h.replacing t merge snap hphase] at hlock
        exact ht (Option.some.inj hlock ▸ hWy)
    · cases hy
      exact ht hWy
  · exact Iff.rfl

/-- The state after the complete row is written. -/
def State.rowReplaced (s : State α) (t : ℕ) (snap : Snapshot) (bounds : Option (α × α)) : State α :=
  { s.setXact t ⟨none, false, .done⟩ with extents := replaceRows (s.vis snap t) t bounds s.extents }

theorem Inv.sound_of_not (h : Inv cmp s) (hphase : (s.xact t).phase = .replace merge snap)
    (hsound : Sound cmp s W)
    (hlive : ∀ y, W y → s.clock.status y = .committed ∨ s.clock.status y = .running)
    (ht : ¬ W t) (hnot : ∀ x, s.clock.status x = .running → W x → s.top x ≠ t) :
    Sound cmp (s.rowReplaced t snap bounds) W := by
  rintro ⟨r, hr, hc, hvis⟩ g hg hgvis
  have hold : ∃ r ∈ s.extents, r.complete = true ∧ RVis W r := by
    rcases mem_replaceRows.mp hr with ⟨r₀, hr₀, rfl⟩ | rfl
    · exact ⟨r₀, hr₀, by rwa [(replaced_spec r₀).2.2.1] at hc,
        (h.replaced_iff hphase hlive ht hr₀).mp hvis⟩
    · exact absurd hvis.1 ht
  obtain ⟨hzone, hcover⟩ := hsound hold g hg hgvis
  refine ⟨hzone, fun v hv => ?_⟩
  rcases hcover v hv with ⟨r', hr', hvis', hcov⟩ | ⟨hrun, hcov⟩
  · refine .inl ⟨_, mem_replaceRows.mpr (.inl ⟨r', hr', rfl⟩), ?_, ?_⟩
    · exact (h.replaced_iff hphase hlive ht hr').mpr hvis'
    · rw [(replaced_spec r').2.1]
      exact hcov
  · refine .inr ⟨hrun, ?_⟩
    show Covers cmp ((s.setXact t ⟨none, false, .done⟩).xact (s.top g.writer)).pending v
    rw [setXact_of_ne (hnot _ hrun hgvis.1)]
    exact hcov

/-- What is written bounds the groups that the holder of the lock sees. -/
theorem Inv.covers_of_replacement (h : Inv cmp s) (hcmp : col.cmp = some cmp) (hc : TotalCmp cmp)
    (hphase : (s.xact t).phase = .replace merge snap)
    (hrep : s.replacement col t merge snap = some bounds) {g : Group α} (hg : g ∈ s.groups)
    (hvis : GVis (At s snap t) g) :
    g.zone ≠ none ∧ ∀ v, some v ∈ g.rows → Covers cmp bounds v := by
  have hl := h.computing t merge snap hphase
  have hmem := mem_readRowGroupList.mpr ⟨hg, hvis⟩
  have hrecompute : recomputeColumn col (s.readRowGroupList (s.vis snap t)) = some bounds →
      g.zone ≠ none ∧ ∀ v, some v ∈ g.rows → Covers cmp bounds v := by
    intro hr
    obtain ⟨hzone, hcov⟩ := recomputeColumn_eq_some hcmp hc hr hmem
    exact ⟨hzone, hcov (h.zoned_of_ne hg hzone)⟩
  unfold State.replacement at hrep
  split at hrep
  · next hmerge =>
    unfold mergeColumn at hrep
    split at hrep
    · next hany =>
      -- the merge: the rows already bound the group
      obtain ⟨r, hr, hcomplete⟩ := any_eq_true.mp hany
      obtain ⟨hr, hrvis⟩ := mem_readExtentRows.mp hr
      obtain ⟨hzone, hcover⟩ := hl.sound ⟨r, hr, hcomplete, hrvis⟩ g hg hvis
      refine ⟨hzone, fun v hv => ?_⟩
      rcases hcover v hv with ⟨r', hr', hrvis', hcov⟩ | ⟨hrun, hcov⟩
      · cases hrep
        exact Covers.foldBounds hcmp hc
          (mem_map_of_mem (mem_readExtentRows.mpr ⟨hr', hrvis'⟩)) hcov
      · have hnone : (s.xact t).pending = none := by
          refine h.pending t ?_ ?_ ?_
          · rw [hphase]
            nofun
          · rw [hphase]
            nofun
          · intro snap'
            rw [hphase, hmerge]
            nofun
        rw [hvis.1.top hrun, hnone] at hcov
        obtain ⟨_, hcov, _⟩ := hcov
        cases hcov
    · exact hrecompute hrep
  · exact hrecompute hrep

/-- A row of another writer that the holder of the lock does not see is kept. -/
theorem kept_row (hr : r ∈ s.extents) (hnot : ¬ At s snap t r.inserter) :
    r ∈ (s.rowReplaced t snap bounds).extents := by
  refine mem_replaceRows.mpr (.inl ⟨r, hr, if_neg fun hvis => ?_⟩)
  exact hnot (row_visible_vis.mp hvis).1

theorem Inv.sound_of_mem (h : Inv cmp s) (hcmp : col.cmp = some cmp) (hc : TotalCmp cmp)
    (hphase : (s.xact t).phase = .replace merge snap)
    (hrep : s.replacement col t merge snap = some bounds) (hW : IsView s W) (ht : W t) :
    Sound cmp (s.rowReplaced t snap bounds) W := by
  intro _ g hg hvis
  have hl := h.computing t merge snap hphase
  have hactive : (s.xact t).phase ≠ .active := by
    rw [hphase]
    nofun
  by_cases hat : At s snap t g.writer
  · -- the holder sees the group
    have hgat : GVis (At s snap t) g :=
      ⟨hat, fun y hy hy' => hvis.2 y hy (hW.of_at ht hactive hy')⟩
    obtain ⟨hzone, hcov⟩ := h.covers_of_replacement hcmp hc hphase hrep hg hgat
    refine ⟨hzone, fun v hv => .inl ⟨⟨true, bounds, t, none⟩, ?_, ⟨ht, by nofun⟩, hcov v hv⟩⟩
    exact mem_replaceRows.mpr (.inr rfl)
  · rcases hW.live _ hvis.1 with hcom | hrun
    · -- it was committed after the holder's snapshot
      obtain ⟨hzone, hcover⟩ := hl.later g hg hcom fun hsees => hat (.inl hsees)
      refine ⟨hzone, fun v hv => ?_⟩
      obtain ⟨r, hr, hins, hnsees, hdel, hcov⟩ := hcover v hv
      have hnot : ¬ At s snap t r.inserter := by
        rintro (hsees | ⟨hrun, _⟩)
        · exact hnsees hsees
        · rw [hins] at hrun
          cases hrun
      refine .inl ⟨r, kept_row hr hnot, ⟨hW.committed _ hins, fun y hy hWy => ?_⟩, hcov⟩
      rcases hW.live y hWy with hst | hst <;> rw [hdel y hy] at hst <;> cases hst
    · -- its writer is running and has its own row, or will write it
      have hne : s.top g.writer ≠ t := fun heq => hat (.inr ⟨hrun, heq⟩)
      have hWtop := hW.up _ hrun hvis.1
      have hlock : s.lock ≠ some (s.top g.writer) := by
        rw [h.replacing t merge snap hphase]
        exact fun heq => hne (Option.some.inj heq).symm
      refine ⟨?_, fun v hv => ?_⟩
      · rcases h.zoned g hg with ⟨_, hcom⟩ | ⟨z, hz, _⟩
        · rw [hrun] at hcom
          cases hcom
        · rw [hz]
          nofun
      · rcases h.own g hg hrun hlock v hv with ⟨r, hr, hins, hdel, hcov⟩ | hcov
        · have hnot : ¬ At s snap t r.inserter := by
            intro hat'
            rw [hins] at hat'
            have := hat'.top (h.tops _ hrun).2
            rw [(h.tops _ hrun).1] at this
            exact hne this
          refine .inl ⟨r, kept_row hr hnot, ⟨by rw [hins]; exact hWtop, fun y hy hWy => ?_⟩, hcov⟩
          rcases hW.live y hWy with hst | hst <;> rw [hdel y hy] at hst <;> cases hst
        · refine .inr ⟨hrun, ?_⟩
          show Covers cmp ((s.setXact t ⟨none, false, .done⟩).xact (s.top g.writer)).pending v
          rw [setXact_of_ne hne]
          exact hcov

/-- The recompute or merge writes its row. -/
theorem Inv.write (h : Inv cmp s) (hcmp : col.cmp = some cmp) (hc : TotalCmp cmp)
    (hphase : (s.xact t).phase = .replace merge snap)
    (hrep : s.replacement col t merge snap = some bounds) :
    Inv cmp (s.rowReplaced t snap bounds) := by
  have hlock := h.replacing t merge snap hphase
  obtain ⟨hrun, htop, _⟩ := h.locked t hlock
  refine h.setDone hphase ?_ ?_ ?_ ?_ ?_ ?_ ?_
  · intro r hr
    rcases mem_replaceRows.mp hr with ⟨r₀, hr₀, rfl⟩ | rfl
    · obtain ⟨hins, -, -, hdel⟩ := replaced_spec r₀
      refine ⟨by rw [hins]; exact (h.usedRows r₀ hr₀).1, fun y hy => ?_⟩
      rcases hdel with hd | hd <;> rw [hd] at hy
      · cases hy
        rw [hrun]
        nofun
      · exact (h.usedRows r₀ hr₀).2 y hy
    · exact ⟨by rw [hrun]; nofun, by nofun⟩
  · intro r hr hrun'
    rcases mem_replaceRows.mp hr with ⟨r₀, hr₀, rfl⟩ | rfl
    · rw [(replaced_spec r₀).1] at hrun' ⊢
      exact (h.inserters r₀ hr₀ hrun').imp id .inr
    · exact ⟨htop, .inl rfl⟩
  · intro r hr hcomplete hrun'
    rcases mem_replaceRows.mp hr with ⟨r₀, hr₀, rfl⟩ | rfl
    · obtain ⟨hins, -, hcom, -⟩ := replaced_spec r₀
      rw [hins] at hrun' ⊢
      rw [hcom] at hcomplete
      have hl := (h.completes r₀ hr₀ hcomplete hrun').1
      rw [hlock] at hl
      exact (Option.some.inj hl).symm
    · rfl
  · intro r hr y hy hrun'
    rcases mem_replaceRows.mp hr with ⟨r₀, hr₀, rfl⟩ | rfl
    · rcases (replaced_spec r₀).2.2.2 with hd | hd <;> rw [hd] at hy
      · cases hy
        rfl
      · have hl := (h.deleters r₀ hr₀ y hy hrun').1
        rw [hlock] at hl
        exact (Option.some.inj hl).symm
    · cases hy
  · intro g hg hgrun hne v hv
    have hlock' : s.lock ≠ some (s.top g.writer) := by
      rw [hlock]
      exact fun heq => hne (Option.some.inj heq).symm
    rcases h.own g hg hgrun hlock' v hv with ⟨r, hr, hins, hdel, hcov⟩ | hcov
    · -- what another transaction has written is not seen, so it was not replaced
      have hnot : ¬ At s snap t r.inserter := by
        intro hat
        rw [hins] at hat
        have := hat.top (h.tops _ hgrun).2
        rw [(h.tops _ hgrun).1] at this
        exact hne this
      exact .inl ⟨r, kept_row hr hnot, hins, hdel, hcov⟩
    · right
      show Covers cmp ((s.setXact t ⟨none, false, .done⟩).xact (s.top g.writer)).pending v
      rw [setXact_of_ne hne]
      exact hcov
  · intro W hW
    -- a view with `t` has the new rows, one without it keeps the old ones
    by_cases ht : W t
    · exact h.sound_of_mem hcmp hc hphase hrep hW ht
    · refine h.sound_of_not hphase (h.views W hW) hW.live ht fun x hx hWx heq => ht ?_
      rw [← heq]
      exact hW.up x hx hWx
  · intro snap' hsnap
    have hnot : ∀ x, s.clock.status x = .running → ¬ s.clock.sees snap' x := by
      intro x hx hsees
      rw [hsees.1] at hx
      cases hx
    exact h.sound_of_not hphase (h.snapshots snap' hsnap) (fun y hy => .inl hy.1) (hnot t hrun)
      fun x hx hsees => absurd hsees (hnot x hx)

theorem Inv.replace (h : Inv cmp s) (hcmp : col.cmp = some cmp) (hc : TotalCmp cmp)
    (hphase : (s.xact t).phase = .replace merge snap) : Inv cmp (s.replace col t merge snap) := by
  unfold State.replace
  cases hrep : s.replacement col t merge snap with
  | none => exact h.refuse hphase hrep
  | some bounds => exact h.write hcmp hc hphase hrep

end Replace

end PgColumnar.Extent
