import PgColumnar.Extent.Steps

/-!
# Snapshots and row groups

Taking a snapshot, flushing a row group and retiring one.  A flushed group is bounded by
what its transaction will write at pre-commit; a retired one only disappears.
-/

namespace PgColumnar.Extent

open Mvcc Zone Compare List Function

variable {α ε : Type} {cmp : α → α → ℤ} {s s' : State α} {W W' : ℕ → Prop} {x t : ℕ}

/-! ## Sets of ids -/

/-- What has committed is a view. -/
theorem Inv.isView_committed (h : Inv cmp s) :
    IsView s fun x => s.clock.status x = .committed where
  committed _ hx := hx
  live _ hx := .inl hx
  up x hrun hx := by
    rw [hrun] at hx
    cases hx
  full x hrun htop _ := absurd htop (h.top_not_committed hrun)

/-- What has committed and one transaction is a view. -/
theorem Inv.isView_own (h : Inv cmp s) (hrun : s.clock.status t = .running) (htop : s.top t = t) :
    IsView s fun x => s.clock.status x = .committed ∨
      s.clock.status x = .running ∧ s.top x = t where
  committed _ hx := .inl hx
  live _ hx := hx.imp id And.left
  up x _ hx := by
    rcases hx with hx | ⟨_, hx⟩
    · rename_i hxrun
      rw [hx] at hxrun
      cases hxrun
    · right
      rw [hx]
      exact ⟨hrun, htop⟩
  full x hxrun hx _ := by
    rcases hx with hx | ⟨_, hx⟩
    · exact absurd hx (h.top_not_committed hxrun)
    · right
      rw [(h.tops x hxrun).1] at hx
      exact ⟨hxrun, hx⟩

theorem At.live {snap : Snapshot} (hx : At s snap t x) :
    s.clock.status x = .committed ∨ s.clock.status x = .running :=
  hx.imp And.left And.left

/-- A running id that a set of committed ids and one transaction contains is of the
transaction. -/
theorem At.top {snap : Snapshot} (hx : At s snap t x) (hrun : s.clock.status x = .running) :
    s.top x = t := by
  rcases hx with hx | hx
  · rw [hx.1] at hrun
    cases hrun
  · exact hx.2

/-! ## Snapshots -/

theorem Inv.takeSnapshot (h : Inv cmp s) (hl : s.clock.Lists s.lazy) :
    Inv cmp { s with clock := s.clock.takeSnapshotBut s.lazy } := by
  rw [Clock.takeSnapshotBut_eq hl]
  exact { h with
    clock := h.clock.step .takeSnapshot
    views W hW := h.views W ⟨hW.committed, hW.live, hW.up, hW.full⟩
    snapshots snap hsnap := by
      rcases mem_append.mp hsnap with hsnap | hsnap
      · exact h.snapshots snap hsnap
      · rw [mem_singleton.mp hsnap]
        have heq : s.clock.sees s.clock.latest = fun x => s.clock.status x = .committed :=
          funext fun x => propext (Clock.sees_latest h.clock)
        have hsound := h.views _ h.isView_committed
        rw [← heq] at hsound
        exact hsound
    computing t merge snap hphase := by
      have hl := h.computing t merge snap hphase
      exact ⟨mem_append_left _ hl.held, hl.sound, hl.complete, hl.deleters, hl.later⟩ }

/-! ## Flushing a group -/

section Append

variable {g : Group α} {pending : Option (α × α)}

/-- The state after `x` has flushed the group, its transaction then having these bounds. -/
def State.appended (s : State α) (t : ℕ) (pending : Option (α × α)) (g : Group α) : State α :=
  { s.setXact t { s.xact t with pending := pending } with groups := s.groups ++ [g] }

theorem appended_clock : (s.appended t pending g).clock = s.clock := rfl

theorem appended_top : (s.appended t pending g).top = s.top := rfl

theorem appended_xact_of_ne {u : ℕ} (hu : u ≠ t) :
    (s.appended t pending g).xact u = s.xact u :=
  update_of_ne hu _ _

theorem appended_xact_self : (s.appended t pending g).xact t =
    { s.xact t with pending := pending } :=
  update_self _ _ _

@[simp] theorem appended_phase (u : ℕ) :
    ((s.appended t pending g).xact u).phase = (s.xact u).phase := by
  by_cases hu : u = t
  · subst hu
    rw [appended_xact_self]
  · rw [appended_xact_of_ne hu]

variable (hmono : ∀ v, Covers cmp (s.xact t).pending v → Covers cmp pending v)
  (hnew : ∀ v, some v ∈ g.rows → Covers cmp pending v)

include hmono in
theorem appended_pending {u : ℕ} {v : α} (hcov : Covers cmp (s.xact u).pending v) :
    Covers cmp ((s.appended t pending g).xact u).pending v := by
  by_cases hu : u = t
  · subst hu
    rw [appended_xact_self]
    exact hmono v hcov
  · rw [appended_xact_of_ne hu]
    exact hcov

include hmono in
theorem Sound.appended (hsound : Sound cmp s W)
    (hnewW : GVis W g → g.zone ≠ none ∧ ∀ v, some v ∈ g.rows →
      Cover cmp (s.appended t pending g) W g v) :
    Sound cmp (s.appended t pending g) W := by
  intro hcomplete g' hg' hvis
  rcases mem_append.mp hg' with hg' | hg'
  · obtain ⟨hzone, hcover⟩ := hsound hcomplete g' hg' hvis
    refine ⟨hzone, fun v hv => ?_⟩
    rcases hcover v hv with hrow | ⟨hrun, hcov⟩
    · exact .inl hrow
    · exact .inr ⟨hrun, appended_pending hmono hcov⟩
  · rw [mem_singleton.mp hg'] at hvis ⊢
    exact hnewW hvis

include hmono hnew in
theorem Inv.append (h : Inv cmp s) (hrun : s.clock.status g.writer = .running)
    (htop : s.top g.writer = t) (hactive : (s.xact t).phase = .active) (hret : g.retirer = none)
    (hz : g.Zoned cmp) : Inv cmp (s.appended t pending g) := by
  have hzone : g.zone ≠ none := by
    obtain ⟨z, hz, _⟩ := hz
    rw [hz]
    nofun
  have hpend : Covers cmp pending = Covers cmp
    ((s.appended t pending g).xact (s.top g.writer)).pending := by
    rw [htop, appended_xact_self]
  refine
    { h with
      usedGroups := ?_, zoned := ?_, pending := ?_, own := ?_, views := ?_, snapshots :=
        ?_, computing := ?_
      phases := by simp only [appended_phase]; exact h.phases
      locked := by simp only [appended_phase]; exact h.locked
      replacing := by simp only [appended_phase]; exact h.replacing
      inserters := by simp only [appended_phase]; exact h.inserters
      completes := by simp only [appended_phase]; exact h.completes
      deleters := by simp only [appended_phase]; exact h.deleters }
  · refine forall_mem_append.mpr ⟨h.usedGroups, forall_mem_singleton.mpr ?_⟩
    rw [appended_clock, hrun, hret]
    exact ⟨by nofun, by nofun⟩
  · refine forall_mem_append.mpr ⟨h.zoned, forall_mem_singleton.mpr ?_⟩
    exact .inr hz
  · intro u hu
    rw [appended_phase] at hu ⊢
    have hne : u ≠ t := fun heq => hu (heq ▸ hactive)
    rw [appended_xact_of_ne hne]
    exact h.pending u hu
  · intro g' hg' hrun' hlock v hv
    -- the new group is within the pending bounds of its writer
    rcases mem_append.mp hg' with hg' | hg'
    · rcases h.own g' hg' hrun' hlock v hv with hrow | hcov
      · exact .inl hrow
      · exact .inr (appended_pending hmono hcov)
    · rw [mem_singleton.mp hg'] at hv ⊢
      right
      rw [appended_top, ← hpend]
      exact hnew v hv
  · intro W hW
    have hW' : IsView s W :=
      ⟨hW.committed, hW.live, hW.up, fun x hx ht hp => hW.full x hx ht (by rwa [appended_phase])⟩
    refine (h.views W hW').appended hmono fun _ => ⟨hzone, fun v hv => .inr ⟨hrun, ?_⟩⟩
    rw [appended_top, ← hpend]
    exact hnew v hv
  · intro snap hsnap
    refine (h.snapshots snap hsnap).appended hmono fun hvis => ?_
    -- the writer runs, so no snapshot sees the group
    have hcom := hvis.1.1
    rw [appended_clock, hrun] at hcom
    cases hcom
  · intro u merge snap hphase
    rw [appended_phase] at hphase
    have hl := h.computing u merge snap hphase
    refine ⟨hl.held, ?_, hl.complete, hl.deleters, ?_⟩
    · refine hl.sound.appended hmono fun hvis => ?_
      have hu : s.top g.writer = u := At.top hvis.1 hrun
      rw [htop] at hu
      rw [← hu, hactive] at hphase
      cases hphase
    · refine forall_mem_append.mpr ⟨hl.later, forall_mem_singleton.mpr ?_⟩
      intro hcom hnot
      rw [appended_clock, hrun] at hcom
      cases hcom

end Append

/-! ## Retiring a group -/

section Retire

variable {g : Group α} {i : ℕ}

/-- The state after `x` has retired the group. -/
def State.retired (s : State α) (t x i : ℕ) (g : Group α) : State α :=
  { s.setXact t { s.xact t with recompute := true } with
    groups := s.groups.set i { g with retirer := some x } }

@[simp] theorem retired_phase (u : ℕ) :
    ((s.retired t x i g).xact u).phase = (s.xact u).phase := by
  unfold State.retired State.setXact
  dsimp only
  by_cases hu : u = t
  · subst hu
    rw [update_self]
  · rw [update_of_ne hu]

@[simp] theorem retired_pending (u : ℕ) :
    ((s.retired t x i g).xact u).pending = (s.xact u).pending := by
  unfold State.retired State.setXact
  dsimp only
  by_cases hu : u = t
  · subst hu
    rw [update_self]
  · rw [update_of_ne hu]

/-- A group afterwards is one from before, which was visible wherever it is now. -/
theorem mem_retired (hg : s.groups[i]? = some g)
    (hret : ∀ y ∈ g.retirer, s.clock.status y = .aborted) {g' : Group α}
    (hg' : g' ∈ (s.retired t x i g).groups) :
    ∃ g₀ ∈ s.groups, g₀.rows = g'.rows ∧ g₀.zone = g'.zone ∧ g₀.writer = g'.writer ∧
      (g'.retirer = some x ∨ g'.retirer = g₀.retirer) ∧
      ∀ y ∈ g₀.retirer, y ∈ g'.retirer ∨ s.clock.status y = .aborted := by
  rcases mem_or_eq_of_mem_set hg' with hg' | rfl
  · exact ⟨g', hg', rfl, rfl, rfl, .inr rfl, fun y hy => .inl hy⟩
  · exact ⟨g, mem_of_getElem? hg, rfl, rfl, rfl, .inl rfl, fun y hy => .inr (hret y hy)⟩

theorem Sound.retired (hsound : Sound cmp s W) (hg : s.groups[i]? = some g)
    (hret : ∀ y ∈ g.retirer, s.clock.status y = .aborted)
    (hlive : ∀ y, W y → s.clock.status y = .committed ∨ s.clock.status y = .running) :
    Sound cmp (s.retired t x i g) W := by
  intro hcomplete g' hg' hvis
  obtain ⟨g₀, hg₀, hrows, hzone₀, hwriter, _, hretirer⟩ := mem_retired hg hret hg'
  have hvis₀ : GVis W g₀ := by
    refine ⟨hwriter ▸ hvis.1, fun y hy hWy => ?_⟩
    rcases hretirer y hy with hy' | hab
    · exact hvis.2 y hy' hWy
    · rcases hlive y hWy with hst | hst <;> rw [hab] at hst <;> cases hst
  obtain ⟨hzone, hcover⟩ := hsound hcomplete g₀ hg₀ hvis₀
  refine ⟨hzone₀ ▸ hzone, fun v hv => ?_⟩
  rcases hcover v (hrows ▸ hv) with hrow | ⟨hrun, hcov⟩
  · exact .inl hrow
  · refine .inr ⟨hwriter ▸ hrun, ?_⟩
    rw [retired_pending, ← hwriter]
    exact hcov

theorem Inv.retire (h : Inv cmp s) (hx : s.clock.status x = .running)
    (hg : s.groups[i]? = some g) (hret : ∀ y ∈ g.retirer, s.clock.status y = .aborted) :
    Inv cmp (s.retired t x i g) := by
  refine
    { h with
      usedGroups := ?_, zoned := ?_, pending := ?_, own := ?_, views := ?_, snapshots :=
        ?_, computing := ?_
      phases := by simp only [retired_phase]; exact h.phases
      locked := by simp only [retired_phase]; exact h.locked
      replacing := by simp only [retired_phase]; exact h.replacing
      inserters := by simp only [retired_phase]; exact h.inserters
      completes := by simp only [retired_phase]; exact h.completes
      deleters := by simp only [retired_phase]; exact h.deleters }
  · intro g' hg'
    obtain ⟨g₀, hg₀, _, _, hwriter, hcases, _⟩ := mem_retired hg hret hg'
    refine ⟨hwriter ▸ (h.usedGroups g₀ hg₀).1, fun y hy => ?_⟩
    rcases hcases with heq | heq
    · rw [heq] at hy
      cases hy
      change s.clock.status _ ≠ _
      rw [hx]
      nofun
    · rw [heq] at hy
      exact (h.usedGroups g₀ hg₀).2 y hy
  · intro g' hg'
    obtain ⟨g₀, hg₀, hrows, hzone, hwriter, _⟩ := mem_retired hg hret hg'
    rcases h.zoned g₀ hg₀ with ⟨hz, hcom⟩ | ⟨z, hz, hcount, hcov⟩
    · exact .inl ⟨hzone ▸ hz, hwriter ▸ hcom⟩
    · exact .inr ⟨z, hzone ▸ hz, hcount, fun v hv => hcov v (hrows ▸ hv)⟩
  · intro u hu
    rw [retired_phase] at hu ⊢
    rw [retired_pending]
    exact h.pending u hu
  · intro g' hg' hrun hlock v hv
    obtain ⟨g₀, hg₀, hrows, _, hwriter, _⟩ := mem_retired hg hret hg'
    rw [← hwriter] at hrun hlock
    rcases h.own g₀ hg₀ hrun hlock v (hrows ▸ hv) with ⟨r, hr, hins, hrest⟩ | hcov
    · exact .inl ⟨r, hr, hwriter ▸ hins, hrest⟩
    · right
      rw [retired_pending, ← hwriter]
      exact hcov
  · intro W hW
    have hW' : IsView s W :=
      ⟨hW.committed, hW.live, hW.up, fun x hx ht hp => hW.full x hx ht (by rwa [retired_phase])⟩
    exact (h.views W hW').retired hg hret hW.live
  · intro snap hsnap
    exact (h.snapshots snap hsnap).retired hg hret fun y hy => .inl hy.1
  · intro u merge snap hphase
    rw [retired_phase] at hphase
    have hl := h.computing u merge snap hphase
    refine ⟨hl.held, hl.sound.retired hg hret fun y hy => hy.live, hl.complete, hl.deleters, ?_⟩
    intro g' hg' hcom hnot
    obtain ⟨g₀, hg₀, hrows, hzone, hwriter, _⟩ := mem_retired hg hret hg'
    rw [← hwriter] at hcom hnot
    obtain ⟨hz, hcover⟩ := hl.later g₀ hg₀ hcom hnot
    exact ⟨hzone ▸ hz, fun v hv => hcover v (hrows ▸ hv)⟩

end Retire

end PgColumnar.Extent
