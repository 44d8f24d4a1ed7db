import PgColumnar.Extent.Views

/-!
# The steps keep the bounds

One lemma for each kind of step.  A step of a transaction leaves the views without it as
they are; so the beginnings and ends of transactions turn one view into another, and the
others concern the views that the acting transaction is part of.
-/

namespace PgColumnar.Extent

open Mvcc Zone Compare Option Clock

variable {α ε : Type} {cmp : α → α → ℤ} {s s' : State α} {W W' : ℕ → Prop}

/-- The views agree on every id there is, and what a writer will write is kept. -/
theorem Sound.congr (h : Sound cmp s W) (hinv : Inv cmp s) (hext : s'.extents = s.extents)
    (hgrp : s'.groups = s.groups) (hW : ∀ x, s.clock.status x ≠ .unused → (W' x ↔ W x))
    (hpend : ∀ g ∈ s.groups, GVis W g → s.clock.status g.writer = .running →
      ∀ v, Covers cmp (s.xact (s.top g.writer)).pending v →
        s'.clock.status g.writer = .running ∧ Covers cmp (s'.xact (s'.top g.writer)).pending v) :
    Sound cmp s' W' := by
  have hrow : ∀ r ∈ s.extents, RVis W' r ↔ RVis W r := by
    intro r hr
    have hused := hinv.usedRows r hr
    exact and_congr (hW _ hused.1) (forall₂_congr fun y hy => not_congr (hW y (hused.2 y hy)))
  have hgroup : ∀ g ∈ s.groups, GVis W' g → GVis W g := by
    intro g hg hvis
    have hused := hinv.usedGroups g hg
    exact ⟨(hW _ hused.1).mp hvis.1, fun y hy hy' => hvis.2 y hy ((hW y (hused.2 y hy)).mpr hy')⟩
  rw [Sound, hext, hgrp]
  intro hcomplete g hg hvis
  obtain ⟨r, hr, hc, hrvis⟩ := hcomplete
  obtain ⟨hzone, hcover⟩ := h ⟨r, hr, hc, (hrow r hr).mp hrvis⟩ g hg (hgroup g hg hvis)
  refine ⟨hzone, fun v hv => ?_⟩
  rcases hcover v hv with ⟨r', hr', hrvis', hcov⟩ | ⟨hrun, hcov⟩
  · refine .inl ⟨r', ?_, (hrow r' hr').mpr hrvis', hcov⟩
    rw [hext]
    exact hr'
  · exact .inr (hpend g hg (hgroup g hg hvis) hrun v hcov)

/-! ## Beginnings -/

section Begin

variable {tp : ℕ}

/-- The state after a transaction or subtransaction has begun. -/
def State.begun (s : State α) (tp : ℕ) : State α :=
  { s with clock := s.clock.begin, top := Function.update s.top s.clock.next tp }

theorem Inv.ne_next (h : Inv cmp s) {x : ℕ} (hx : s.clock.status x ≠ .unused) :
    x ≠ s.clock.next := by
  intro heq
  exact hx (heq ▸ h.clock.unused _ (Nat.le_refl _))

theorem begun_status {x : ℕ} (hx : x ≠ s.clock.next) :
    (s.begun tp).clock.status x = s.clock.status x :=
  begin_status_of_ne hx

theorem begun_top {x : ℕ} (hx : x ≠ s.clock.next) : (s.begun tp).top x = s.top x :=
  Function.update_of_ne hx _ _

/-- Only the new id gets a status. -/
theorem Inv.begun_status_iff (h : Inv cmp s) {x : ℕ} {st : Status} (hst : st ≠ .running)
    (hun : st ≠ .unused) : (s.begun tp).clock.status x = st ↔ s.clock.status x = st := by
  by_cases hx : x = s.clock.next
  · subst hx
    have hnew : (s.begun tp).clock.status s.clock.next = .running := begin_status_next
    rw [hnew, h.clock.unused _ (Nat.le_refl _)]
    exact ⟨fun heq => absurd heq.symm hst, fun heq => absurd heq.symm hun⟩
  · rw [begun_status hx]

theorem Inv.isView_begun (h : Inv cmp s) (hW : IsView (s.begun tp) W) :
    IsView s fun x => W x ∧ x ≠ s.clock.next where
  committed x hx := by
    have hne := h.ne_next (x := x) (by rw [hx]; nofun)
    exact ⟨hW.committed x (by rw [begun_status hne, hx]), hne⟩
  live x hx := by
    have hlive := hW.live x hx.1
    rwa [begun_status hx.2] at hlive
  up x hrun hx := by
    have hup := hW.up x (by rw [begun_status hx.2, hrun]) hx.1
    rw [begun_top hx.2] at hup
    exact ⟨hup, h.ne_next (by rw [(h.tops x hrun).2]; nofun)⟩
  full x hrun htop hphase := by
    have hne := h.ne_next (x := x) (by rw [hrun]; nofun)
    refine ⟨hW.full x (by rw [begun_status hne, hrun]) ?_ ?_, hne⟩
    · rw [begun_top hne]
      exact htop.1
    · rw [begun_top hne]
      exact hphase

theorem Inv.sound_begun (h : Inv cmp s) (hsound : Sound cmp s W)
    (hW : ∀ x, s.clock.status x ≠ .unused → (W' x ↔ W x)) : Sound cmp (s.begun tp) W' := by
  refine hsound.congr h rfl rfl hW ?_
  intro g hg _ hrun v hcov
  have hne := h.ne_next (h.usedGroups g hg).1
  exact ⟨by rw [begun_status hne, hrun], by rw [begun_top hne]; exact hcov⟩

theorem Inv.begun_used (h : Inv cmp s) {x : ℕ} (hx : s.clock.status x ≠ .unused) :
    (s.begun tp).clock.status x ≠ .unused := by
  rw [begun_status (h.ne_next hx)]
  exact hx

/-- A running id after the step is the new one, or one from before. -/
theorem begun_running {x : ℕ} (hx : (s.begun tp).clock.status x = .running) :
    x = s.clock.next ∨ x ≠ s.clock.next ∧ s.clock.status x = .running := by
  by_cases hne : x = s.clock.next
  · exact .inl hne
  · exact .inr ⟨hne, by rwa [begun_status hne] at hx⟩

theorem Inv.locked_begun (h : Inv cmp s) {t : ℕ} {snap : Snapshot} (hl : Locked cmp s t snap) :
    Locked cmp (s.begun tp) t snap where
  held := hl.held
  sound := by
    refine h.sound_begun hl.sound fun x hx => ?_
    have hne := h.ne_next hx
    refine or_congr (sees_next h.clock .begin hl.held) ?_
    rw [begun_status hne, begun_top hne]
  complete r hr hc hcom := by
    rw [h.begun_status_iff (by nofun) (by nofun)] at hcom
    exact (sees_next h.clock .begin hl.held).mpr (hl.complete r hr hc hcom)
  deleters r hr y hy hcom := by
    rw [h.begun_status_iff (by nofun) (by nofun)] at hcom
    exact (sees_next h.clock .begin hl.held).mpr (hl.deleters r hr y hy hcom)
  later g hg hcom hnot := by
    rw [h.begun_status_iff (by nofun) (by nofun)] at hcom
    have hnot' : ¬ s.clock.sees snap g.writer :=
      fun hsees => hnot ((sees_next h.clock .begin hl.held).mpr hsees)
    obtain ⟨hzone, hcover⟩ := hl.later g hg hcom hnot'
    refine ⟨hzone, fun v hv => ?_⟩
    obtain ⟨r, hr, hins, hsees, hdel, hcov⟩ := hcover v hv
    refine ⟨r, hr, ?_, ?_, ?_, hcov⟩
    · rwa [h.begun_status_iff (by nofun) (by nofun)]
    · exact fun hs => hsees ((sees_next h.clock .begin hl.held).mp hs)
    · intro y hy
      rw [h.begun_status_iff (by nofun) (by nofun)]
      exact hdel y hy

/-- A transaction begins, or a subtransaction of a running one. -/
theorem Inv.begin (h : Inv cmp s)
    (htp : tp = s.clock.next ∨ s.clock.status tp = .running ∧ s.top tp = tp) :
    Inv cmp (s.begun tp) where
  clock := h.clock.step .begin
  usedGroups g hg :=
    ⟨h.begun_used (h.usedGroups g hg).1, fun y hy => h.begun_used ((h.usedGroups g hg).2 y hy)⟩
  usedRows r hr :=
    ⟨h.begun_used (h.usedRows r hr).1, fun y hy => h.begun_used ((h.usedRows r hr).2 y hy)⟩
  zoned g hg := by
    rcases h.zoned g hg with ⟨hz, hcom⟩ | hz
    · exact .inl ⟨hz, by rwa [h.begun_status_iff (by nofun) (by nofun)]⟩
    · exact .inr hz
  tops x hx := by
    rcases begun_running hx with rfl | ⟨hne, hrun⟩
    · have htop : (s.begun tp).top s.clock.next = tp := Function.update_self _ _ _
      rw [htop]
      rcases htp with rfl | ⟨hrun, htt⟩
      · exact ⟨htop, hx⟩
      · have hne := h.ne_next (x := tp) (by rw [hrun]; nofun)
        rw [begun_top hne, begun_status hne]
        exact ⟨htt, hrun⟩
    · obtain ⟨htop, htrun⟩ := h.tops x hrun
      have hne' := h.ne_next (x := s.top x) (by rw [htrun]; nofun)
      rw [begun_top hne, begun_top hne', begun_status hne']
      exact ⟨htop, htrun⟩
  phases t ht := by
    obtain ⟨hrun, htop⟩ := h.phases t ht
    have hne := h.ne_next (x := t) (by rw [hrun]; nofun)
    rw [begun_status hne, begun_top hne]
    exact ⟨hrun, htop⟩
  locked t ht := by
    obtain ⟨hrun, htop, hphase⟩ := h.locked t ht
    have hne := h.ne_next (x := t) (by rw [hrun]; nofun)
    rw [begun_status hne, begun_top hne]
    exact ⟨hrun, htop, hphase⟩
  replacing := h.replacing
  pending := h.pending
  inserters r hr hrun := by
    have hne := h.ne_next (h.usedRows r hr).1
    rw [begun_status hne] at hrun
    rw [begun_top hne]
    exact h.inserters r hr hrun
  completes r hr hc hrun := by
    rw [begun_status (h.ne_next (h.usedRows r hr).1)] at hrun
    exact h.completes r hr hc hrun
  deleters r hr y hy hrun := by
    rw [begun_status (h.ne_next ((h.usedRows r hr).2 y hy))] at hrun
    exact h.deleters r hr y hy hrun
  own g hg hrun hlock v hv := by
    have hne := h.ne_next (h.usedGroups g hg).1
    rw [begun_status hne] at hrun
    rw [begun_top hne] at hlock
    rcases h.own g hg hrun hlock v hv with ⟨r, hr, hins, hdel, hcov⟩ | hcov
    · refine .inl ⟨r, hr, by rw [begun_top hne]; exact hins, fun y hy => ?_, hcov⟩
      rw [h.begun_status_iff (by nofun) (by nofun)]
      exact hdel y hy
    · exact .inr (by rw [begun_top hne]; exact hcov)
  views W hW :=
    h.sound_begun (h.views _ (h.isView_begun hW)) fun x hx =>
      ⟨fun hWx => ⟨hWx, h.ne_next hx⟩, fun hWx => hWx.1⟩
  snapshots snap hsnap :=
    h.sound_begun (h.snapshots snap hsnap) fun _ _ => sees_next h.clock .begin hsnap
  computing t merge snap hphase := h.locked_begun (h.computing t merge snap hphase)

end Begin

/-! ## Ends -/

section End

variable {xs us : List ℕ} {st : Status}

/-- The state after the ids `xs` have ended, among them the transactions `us`. -/
def State.ended (s : State α) (xs us : List ℕ) (st : Status) : State α :=
  { s.forget us with clock := s.clock.finish xs st }

/-- The ids `xs` end: the subtransactions of a transaction that commits, or ids that abort,
those of a committing transaction only together with it. -/
structure Ends (s : State α) (xs us : List ℕ) (st : Status) : Prop where
  running : ∀ x ∈ xs, s.clock.status x = .running
  status : st = .committed ∨ st = .aborted
  tops : ∀ x ∈ xs, (s.xact (s.top x)).phase ≠ .active → s.top x ∈ us
  mem : ∀ t ∈ us, t ∈ xs
  own : ∀ x ∈ xs, s.top x = x → x ∈ us
  all : ∀ x, s.clock.status x = .running → s.top x ∈ us → x ∈ xs
  done : st = .committed → ∀ x ∈ xs, s.top x ∈ us ∧ (s.xact (s.top x)).pending = none

theorem ended_status_of_mem {x : ℕ} (hx : x ∈ xs) : (s.ended xs us st).clock.status x = st :=
  finish_status_of_mem hx

theorem ended_status {x : ℕ} (hx : x ∉ xs) : (s.ended xs us st).clock.status x = s.clock.status x :=
  finish_status_of_not_mem hx

theorem ended_xact {t : ℕ} (ht : t ∉ us) : (s.ended xs us st).xact t = s.xact t := if_neg ht

theorem ended_xact_of_mem {t : ℕ} (ht : t ∈ us) : (s.ended xs us st).xact t = .start := if_pos ht

/-- What is committed afterwards was so before, or is one of `xs`. -/
theorem ended_committed {x : ℕ} (hx : (s.ended xs us st).clock.status x = .committed) :
    s.clock.status x = .committed ∨ x ∈ xs ∧ st = .committed := by
  by_cases hmem : x ∈ xs
  · rw [ended_status_of_mem hmem] at hx
    exact .inr ⟨hmem, hx⟩
  · rw [ended_status hmem] at hx
    exact .inl hx

namespace Ends

variable (he : Ends s xs us st) {x t : ℕ} {snap : Snapshot}

include he

theorem next : Clock.Next s.clock (s.ended xs us st).clock := .finish he.running he.status

theorem not_mem_of_ne (hx : s.clock.status x ≠ .running) : x ∉ xs :=
  fun hmem => hx (he.running x hmem)

theorem committed_of (hx : s.clock.status x = .committed) :
    (s.ended xs us st).clock.status x = .committed := by
  rw [ended_status (he.not_mem_of_ne (by rw [hx]; nofun)), hx]

theorem used (hx : s.clock.status x ≠ .unused) : (s.ended xs us st).clock.status x ≠ .unused :=
  he.next.used hx

/-- What runs afterwards ran before. -/
theorem running_of (hx : (s.ended xs us st).clock.status x = .running) :
    x ∉ xs ∧ s.clock.status x = .running := by
  by_cases hmem : x ∈ xs
  · rw [ended_status_of_mem hmem] at hx
    rcases he.status with h | h <;> rw [h] at hx <;> cases hx
  · exact ⟨hmem, by rwa [ended_status hmem] at hx⟩

theorem aborted_of (hx : s.clock.status x = .aborted) :
    (s.ended xs us st).clock.status x = .aborted := by
  rw [ended_status (he.not_mem_of_ne (by rw [hx]; nofun)), hx]

/-- A view that contains one of `xs` shows that they have committed. -/
theorem committed_of_live (hx : x ∈ xs) (hlive : (s.ended xs us st).clock.status x = .committed ∨
      (s.ended xs us st).clock.status x = .running) : st = .committed := by
  rw [ended_status_of_mem hx] at hlive
  rcases hlive with h | h
  · exact h
  · rcases he.status with h' | h' <;> rw [h'] at h <;> cases h

/-- A transaction does not end without its subtransactions. -/
theorem top_not_mem (hrun : s.clock.status x = .running) (hx : x ∉ xs) : s.top x ∉ us :=
  fun hmem => hx (he.all x hrun hmem)

theorem isView (hW : IsView (s.ended xs us st) W) : IsView s W where
  committed x hx := hW.committed x (he.committed_of hx)
  live x hx := by
    rcases hW.live x hx with hcom | hrun
    · rcases ended_committed hcom with hcom | ⟨hmem, _⟩
      · exact .inl hcom
      · exact .inr (he.running x hmem)
    · exact .inr (he.running_of hrun).2
  up x hrun hx := by
    by_cases hmem : x ∈ xs
    · have hst := he.committed_of_live hmem (hW.live x hx)
      refine hW.committed _ ?_
      rw [ended_status_of_mem (he.mem _ (he.done hst x hmem).1), hst]
    · exact hW.up x (by rw [ended_status hmem, hrun]) hx
  full x hrun htop hphase := by
    by_cases hmem : x ∈ xs
    · have hus := he.mem _ (he.tops x hmem hphase)
      have hst := he.committed_of_live hus (hW.live _ htop)
      exact hW.committed x (by rw [ended_status_of_mem hmem, hst])
    · have hus := he.top_not_mem hrun hmem
      refine hW.full x (by rw [ended_status hmem, hrun]) htop ?_
      show ((s.ended xs us st).xact (s.top x)).phase ≠ .active
      rw [ended_xact hus]
      exact hphase

/-- What is bounded stays so, for a set that contains transactions with their
subtransactions. -/
theorem sound (h : Inv cmp s) (hsound : Sound cmp s W)
    (hlive : ∀ x, W x → (s.ended xs us st).clock.status x = .committed ∨
      (s.ended xs us st).clock.status x = .running) :
    Sound cmp (s.ended xs us st) W := by
  refine hsound.congr h rfl rfl (fun _ _ => Iff.rfl) ?_
  intro g hg hvis hrun v hcov
  by_cases hmem : g.writer ∈ xs
  · have hst := he.committed_of_live hmem (hlive _ hvis.1)
    rw [(he.done hst _ hmem).2] at hcov
    obtain ⟨_, hnone, _⟩ := hcov
    cases hnone
  · have hus := he.top_not_mem hrun hmem
    refine ⟨by rw [ended_status hmem, hrun], ?_⟩
    show Covers cmp ((s.ended xs us st).xact (s.top g.writer)).pending v
    rw [ended_xact hus]
    exact hcov

/-- The subtransactions of a transaction in its pre-commit do not end without it. -/
theorem own_iff (hphase : (s.xact t).phase ≠ .active) (ht : t ∉ us) :
    (s.ended xs us st).clock.status x = .running ∧ s.top x = t ↔
      s.clock.status x = .running ∧ s.top x = t := by
  constructor
  · intro hx
    exact ⟨(he.running_of hx.1).2, hx.2⟩
  · intro hx
    refine ⟨?_, hx.2⟩
    have hmem : x ∉ xs := by
      intro hmem
      refine ht ?_
      rw [← hx.2]
      exact he.tops x hmem (by rw [hx.2]; exact hphase)
    rw [ended_status hmem, hx.1]

theorem sees_iff (h : Inv cmp s) (hsnap : snap ∈ s.clock.snapshots) :
    (s.ended xs us st).clock.sees snap x ↔ s.clock.sees snap x :=
  sees_next h.clock he.next hsnap

theorem computing (h : Inv cmp s) {merge : Bool} (ht : t ∉ us)
    (hphase : (s.xact t).phase = .replace merge snap) : Locked cmp (s.ended xs us st) t snap := by
  have hl := h.computing t merge snap hphase
  have hactive : (s.xact t).phase ≠ .active := by
    rw [hphase]
    nofun
  have htop := (h.phases t hactive).2
  have hlock := h.replacing t merge snap hphase
  have hat : ∀ x, At (s.ended xs us st) snap t x ↔ At s snap t x := fun x =>
    or_congr (he.sees_iff h hl.held) (he.own_iff hactive ht)
  -- the holder of the lock is not among those that end
  have hnot : ∀ y ∈ xs, st = .committed → s.lock ≠ some y := by
    intro y hy hst heq
    rw [hlock] at heq
    cases heq
    exact ht (htop ▸ (he.done hst t hy).1)
  refine ⟨hl.held, ?_, ?_, ?_, ?_⟩
  · have hsound : Sound cmp (s.ended xs us st) (At s snap t) := by
      refine he.sound h hl.sound fun x hx => ?_
      rcases (hat x).mpr hx with hsees | hown
      · exact .inl hsees.1
      · exact .inr hown.1
    have heq : At (s.ended xs us st) snap t = At s snap t := funext fun x => propext (hat x)
    rw [heq]
    exact hsound
  · intro r hr hc hcom
    rw [he.sees_iff h hl.held]
    rcases ended_committed hcom with hcom | ⟨hmem, hst⟩
    · exact hl.complete r hr hc hcom
    · exact absurd (h.completes r hr hc (he.running _ hmem)).1 (hnot _ hmem hst)
  · intro r hr y hy hcom
    rw [he.sees_iff h hl.held]
    rcases ended_committed hcom with hcom | ⟨hmem, hst⟩
    · exact hl.deleters r hr y hy hcom
    · exact absurd (h.deleters r hr y hy (he.running _ hmem)).1 (hnot _ hmem hst)
  · intro g hg hcom hsees
    rw [he.sees_iff h hl.held] at hsees
    rcases ended_committed hcom with hcom | ⟨hmem, hst⟩
    · obtain ⟨hzone, hcover⟩ := hl.later g hg hcom hsees
      refine ⟨hzone, fun v hv => ?_⟩
      obtain ⟨r, hr, hins, hnsees, hdel, hcov⟩ := hcover v hv
      refine ⟨r, hr, he.committed_of hins, ?_, fun y hy => he.aborted_of (hdel y hy), hcov⟩
      rwa [he.sees_iff h hl.held]
    · -- it commits now, and leaves the row it wrote
      have hrun := he.running _ hmem
      obtain ⟨hus, hnone⟩ := he.done hst _ hmem
      have htopmem := he.mem _ hus
      constructor
      · rcases h.zoned g hg with ⟨_, hcom'⟩ | ⟨z, hz, _⟩
        · rw [hrun] at hcom'
          cases hcom'
        · rw [hz]
          nofun
      · intro v hv
        have hne : s.lock ≠ some (s.top g.writer) := hnot _ htopmem hst
        rcases h.own g hg hrun hne v hv with ⟨r, hr, hins, hdel, hcov⟩ | hcov
        · refine ⟨r, hr, ?_, ?_, fun y hy => he.aborted_of (hdel y hy), hcov⟩
          · rw [hins, ended_status_of_mem htopmem, hst]
          · rw [he.sees_iff h hl.held, hins]
            intro hs
            have := hs.1
            rw [he.running _ htopmem] at this
            cases this
        · rw [hnone] at hcov
          obtain ⟨_, hnone', _⟩ := hcov
          cases hnone'

end Ends

/-- Transactions or subtransactions end. -/
theorem Inv.finish (h : Inv cmp s) (he : Ends s xs us st) : Inv cmp (s.ended xs us st) where
  clock := h.clock.step he.next
  usedGroups g hg :=
    ⟨he.used (h.usedGroups g hg).1, fun y hy => he.used ((h.usedGroups g hg).2 y hy)⟩
  usedRows r hr :=
    ⟨he.used (h.usedRows r hr).1, fun y hy => he.used ((h.usedRows r hr).2 y hy)⟩
  zoned g hg := by
    rcases h.zoned g hg with ⟨hz, hcom⟩ | hz
    · exact .inl ⟨hz, he.committed_of hcom⟩
    · exact .inr hz
  tops x hx := by
    obtain ⟨hmem, hrun⟩ := he.running_of hx
    obtain ⟨htop, htrun⟩ := h.tops x hrun
    have htmem : s.top x ∉ xs := fun htmem => he.top_not_mem hrun hmem (he.own _ htmem htop)
    refine ⟨htop, ?_⟩
    show (s.ended xs us st).clock.status (s.top x) = .running
    rw [ended_status htmem, htrun]
  phases t ht := by
    have hus : t ∉ us := by
      intro hmem
      rw [ended_xact_of_mem hmem] at ht
      exact ht rfl
    rw [ended_xact hus] at ht
    obtain ⟨hrun, htop⟩ := h.phases t ht
    have hmem : t ∉ xs := fun hmem => hus (htop ▸ he.tops t hmem (by rw [htop]; exact ht))
    exact ⟨by rw [ended_status hmem, hrun], htop⟩
  locked t ht := by
    obtain ⟨hlock, hus⟩ := filter_eq_some_iff.mp ht
    obtain ⟨hrun, htop, hphase⟩ := h.locked t hlock
    have hus : t ∉ us := of_decide_eq_true hus
    have hmem : t ∉ xs := fun hmem =>
      hus (htop ▸ he.tops t hmem (by rw [htop]; exact h.active_ne hlock))
    rw [ended_xact hus]
    exact ⟨by rw [ended_status hmem, hrun], htop, hphase⟩
  replacing t merge snap hphase := by
    have hus : t ∉ us := by
      intro hmem
      rw [ended_xact_of_mem hmem] at hphase
      cases hphase
    rw [ended_xact hus] at hphase
    exact filter_eq_some_iff.mpr ⟨h.replacing t merge snap hphase, decide_eq_true hus⟩
  pending t := by
    by_cases hus : t ∈ us
    · rw [ended_xact_of_mem hus]
      exact fun _ _ _ => rfl
    · rw [ended_xact hus]
      exact h.pending t
  inserters r hr hrun := by
    obtain ⟨hmem, hrun⟩ := he.running_of hrun
    obtain ⟨htop, hphase⟩ := h.inserters r hr hrun
    refine ⟨htop, ?_⟩
    have hus : r.inserter ∉ us := fun hus => hmem (he.mem _ hus)
    rw [ended_xact hus]
    exact hphase
  completes r hr hc hrun := by
    obtain ⟨hmem, hrun⟩ := he.running_of hrun
    obtain ⟨hlock, hphase⟩ := h.completes r hr hc hrun
    have hus : r.inserter ∉ us := fun hus => hmem (he.mem _ hus)
    rw [ended_xact hus]
    exact ⟨filter_eq_some_iff.mpr ⟨hlock, decide_eq_true hus⟩, hphase⟩
  deleters r hr y hy hrun := by
    obtain ⟨hmem, hrun⟩ := he.running_of hrun
    obtain ⟨hlock, hphase⟩ := h.deleters r hr y hy hrun
    have hus : y ∉ us := fun hus => hmem (he.mem _ hus)
    rw [ended_xact hus]
    exact ⟨filter_eq_some_iff.mpr ⟨hlock, decide_eq_true hus⟩, hphase⟩
  own g hg hrun hlock v hv := by
    obtain ⟨hmem, hrun⟩ := he.running_of hrun
    have hus := he.top_not_mem hrun hmem
    have hlock' : s.lock ≠ some (s.top g.writer) := by
      intro heq
      exact hlock (filter_eq_some_iff.mpr ⟨heq, decide_eq_true hus⟩)
    -- what was void stays void, and pending bounds stay with their transaction
    rcases h.own g hg hrun hlock' v hv with ⟨r, hr, hins, hdel, hcov⟩ | hcov
    · exact .inl ⟨r, hr, hins, fun y hy => he.aborted_of (hdel y hy), hcov⟩
    · right
      show Covers cmp ((s.ended xs us st).xact (s.top g.writer)).pending v
      rw [ended_xact hus]
      exact hcov
  views W hW := he.sound h (h.views W (he.isView hW)) hW.live
  snapshots snap hsnap := by
    have heq : (s.ended xs us st).clock.sees snap = s.clock.sees snap :=
      funext fun x => propext (he.sees_iff h hsnap)
    rw [heq]
    exact he.sound h (h.snapshots snap hsnap) fun x hx => .inl (he.committed_of hx.1)
  computing t merge snap hphase := by
    have hus : t ∉ us := by
      intro hmem
      rw [ended_xact_of_mem hmem] at hphase
      cases hphase
    rw [ended_xact hus] at hphase
    exact he.computing h hus hphase

end End

end PgColumnar.Extent
