import PgColumnar.Fetch.Transaction

/-!
# The joint invariant

Every step keeps the invariants of the write buffers and of the delete marks, and the row groups
that the two know are the same.

## Main definitions

* `Inv` — the invariants of both sides, over one catalog.
-/

namespace PgColumnar.Fetch

open Nested Write Delete Transaction List
open Option (bind_eq_some_iff map_eq_some_iff)

variable {ρ : Type*} {base : Base ρ} {t t' : Transaction ρ}

/-- A row group with the subtransaction that inserted it, as delete marks know it. -/
def tagged (g : RowGroup ρ) : ℕ × RowGroupMeta := (g.subid, groupMeta g)

structure Inv (base : Base ρ) (t : Transaction ρ) : Prop where
  write : t.write.Inv base.metapage.reservedRowNumber
  delete : t.delete.Inv base.stored
  stack : t.delete.session.stack = t.write.session.stack
  groups : t.delete.session.rowGroups =
    base.rowGroups.map (fun g => (0, groupMeta g)) ++ t.write.session.rowGroups.map tagged

theorem Inv.start (base : Base ρ) : Inv base (start base) where
  write := History.inv_start _
  delete := Delete.History.inv_start _
  stack := rfl
  groups := by simp [Transaction.start, Delete.History.start, Delete.Session.start, Base.stored,
    Write.History.start]

/-! ### Row groups that are written -/

theorem addRowGroups_spec {groups : List (RowGroup ρ)} {d d' : Delete.History}
    (hinv : d.Inv base.stored) (hsub : ∀ g ∈ groups, g.subid = d.session.stack.current)
    (h : addRowGroups groups d = some d') :
    d'.Inv base.stored ∧ d'.session.stack = d.session.stack ∧
      d'.session.rowGroups = d.session.rowGroups ++ groups.map tagged ∧
      d'.session.deleteVectors = d.session.deleteVectors ∧
      d'.session.buffers = d.session.buffers ∧ d'.journal = d.journal := by
  induction groups generalizing d with
  | nil =>
    cases h
    exact ⟨hinv, rfl, by simp, rfl, rfl, rfl⟩
  | cons g groups ih =>
    obtain ⟨e, he, hrest⟩ := bind_eq_some_iff.mp h
    have hinv' := hinv.step _ he
    obtain ⟨s, hs, rfl⟩ := map_eq_some_iff.mp he
    unfold Delete.Session.insertRowGroup at hs
    split_ifs at hs
    cases hs
    obtain ⟨h1, h2, h3, h4, h5, h6⟩ := ih hinv' (fun g hg => hsub g (mem_cons_of_mem _ hg)) hrest
    refine ⟨h1, h2, ?_, h4, h5, h6⟩
    rw [h3]
    simp [tagged, hsub g mem_cons_self]

theorem subid_flushRowGroup (current : ℕ) (keep : Bool) (ws : WriteState ρ) :
    ∀ g ∈ (flushRowGroup current keep ws).2, g.subid = current := by
  intro g hg
  unfold flushRowGroup at hg
  split at hg
  · cases hg
  · split at hg
    · cases hg
    · rw [mem_singleton.mp hg]

theorem subid_flushWithProjections (current : ℕ) (keep : Bool) (ws : WriteState ρ) :
    ∀ g ∈ (flushWithProjections current keep ws).2, g.subid = current :=
  subid_flushRowGroup current keep ws

theorem subid_flushWriteState (current : ℕ) (ws : WriteState ρ) :
    ∀ g ∈ (flushWriteState current ws).2, g.subid = current := by
  intro g hg
  unfold flushWriteState at hg
  dsimp only at hg
  split at hg
  · cases hg
  · split at hg
    · cases hg
    · split at hg
      · exact subid_flushWithProjections _ _ _ g hg
      · exact subid_flushWithProjections _ _ _ g hg

theorem subid_flushPendingWrites (current : ℕ) (ws : WriteState ρ) :
    ∀ g ∈ (flushPendingWrites current ws).2, g.subid = current := by
  intro g hg
  unfold flushPendingWrites at hg
  split at hg
  · cases hg
  · exact subid_flushWithProjections _ _ _ g hg

theorem subid_afterAppend (current : ℕ) (ws : WriteState ρ) :
    ∀ g ∈ (afterAppend current ws).2, g.subid = current := by
  intro g hg
  unfold afterAppend at hg
  split at hg
  · cases hg
  · exact subid_flushWithProjections _ _ _ g hg

theorem subid_getWriteState (current natts : ℕ) (limit : RowLimit) (states : List (WriteState ρ)) :
    ∀ g ∈ (getWriteState current natts limit states).2, g.subid = current := by
  intro g hg
  unfold getWriteState at hg
  split at hg
  · cases hg
  · split at hg
    · cases hg
    · exact subid_flushWithProjections _ _ _ g hg

theorem subid_writeRow (current : ℕ) (ws : WriteState ρ) (m : Metapage) (row : ρ) :
    ∀ g ∈ (writeRow current ws m row).groups, g.subid = current := by
  intro g hg
  unfold writeRow flushAtLimit at hg
  dsimp only at hg
  split at hg
  · exact subid_flushRowGroup _ _ _ g hg
  · cases hg

/-- A step of the write buffers that does not start or end a subtransaction. -/
@[simp] def Plain : Write.Action ρ → Prop
  | .startSubXact | .commitSubXact | .abortSubXact => False
  | _ => True

variable {a : Write.Action ρ}

/-- Such a step adds row groups of the current subtransaction. -/
theorem writeStep_groups {w w' : Write.History ρ} (ha : Plain a)
    (h : w.step a = some w') : w'.session.stack = w.session.stack ∧
      ∃ new, w'.session.rowGroups = w.session.rowGroups ++ new ∧
        ∀ g ∈ new, g.subid = w.session.stack.current := by
  cases a with
  | openState natts limit =>
    cases h
    exact ⟨rfl, _, rfl, subid_getWriteState _ _ _ _⟩
  | append natts limit projections row =>
    cases h
    refine ⟨rfl, _, by simp only [Write.Session.append, append_assoc]; rfl, ?_⟩
    intro g hg
    rcases mem_append.mp hg with hg | hg
    · exact subid_getWriteState _ _ _ _ g hg
    · rcases mem_append.mp hg with hg | hg
      · exact subid_writeRow _ _ _ _ g hg
      · exact subid_afterAppend _ _ g hg
  | readFlush =>
    cases h
    refine ⟨rfl, _, rfl, ?_⟩
    intro g hg
    obtain ⟨ws, -, hg⟩ := mem_flatMap.mp hg
    exact subid_flushWriteState _ _ g hg
  | statementEnd =>
    cases h
    refine ⟨rfl, _, rfl, ?_⟩
    intro g hg
    obtain ⟨ws, -, hg⟩ := mem_flatMap.mp hg
    exact subid_flushPendingWrites _ _ g hg
  | reserve rowCount =>
    cases h
    exact ⟨rfl, [], by simp, nofun⟩
  | startSubXact | commitSubXact | abortSubXact => simp at ha

/-- What a plain step of the write buffers leaves of the rest. -/
structure WriteStep (base : Base ρ) (t t' : Transaction ρ) (a : Write.Action ρ) : Prop where
  inv : Inv base t'
  step : t.write.step a = some t'.write
  groups : ∃ new, t'.write.session.rowGroups = t.write.session.rowGroups ++ new
  stack : t'.delete.session.stack = t.delete.session.stack
  deleteVectors : t'.delete.session.deleteVectors = t.delete.session.deleteVectors
  buffers : t'.delete.session.buffers = t.delete.session.buffers
  journal : t'.delete.journal = t.delete.journal

theorem Inv.stepWrite (h : Inv base t) (ha : Plain a)
    (hstep : t.stepWrite a = some t') : WriteStep base t t' a := by
  obtain ⟨w, hw, hmap⟩ := bind_eq_some_iff.mp hstep
  obtain ⟨d, hd, rfl⟩ := map_eq_some_iff.mp hmap
  obtain ⟨hstack, new, hnew, hsub⟩ := writeStep_groups ha hw
  rw [hnew, drop_left] at hd
  obtain ⟨h1, h2, h3, h4, h5, h6⟩ := addRowGroups_spec h.delete (fun g hg => h.stack ▸ hsub g hg) hd
  refine ⟨⟨h.write.step a hw, h1, h2.trans (h.stack.trans hstack.symm), ?_⟩, hw, ⟨new, hnew⟩, h2,
    h4, h5, h6⟩
  rw [h3, h.groups, hnew, map_append, append_assoc]

/-! ### Steps -/

/-- A step of the delete marks that starts or ends no subtransaction and adds no row group. -/
theorem Inv.stepDelete (h : Inv base t) {a : Delete.Action} (hstep : t.stepDelete a = some t')
    (hstack : ∀ d, t.delete.step a = some d → d.session.stack = t.delete.session.stack)
    (hgroups : ∀ d, t.delete.step a = some d → d.session.rowGroups = t.delete.session.rowGroups) :
    Inv base t' := by
  obtain ⟨d, hd, rfl⟩ := map_eq_some_iff.mp hstep
  exact ⟨h.write, h.delete.step a hd, (hstack d hd).trans h.stack, (hgroups d hd).trans h.groups⟩

theorem stepDelete_forEach {s s' : Delete.Session}
    {f : Buffer → List DeleteVectorRow → Option (Buffer × List DeleteVectorRow)}
    (h : s.forEach f = some s') : s'.stack = s.stack ∧ s'.rowGroups = s.rowGroups := by
  obtain ⟨r, -, rfl⟩ := map_eq_some_iff.mp h
  exact ⟨rfl, rfl⟩

theorem Inv.mark (h : Inv base t) {n : ℕ} (hstep : t.stepDelete (.mark n) = some t') :
    Inv base t' := by
  refine h.stepDelete hstep ?_ ?_
  · intro d hd
    obtain ⟨r, -, rfl⟩ := map_eq_some_iff.mp hd
    rfl
  · intro d hd
    obtain ⟨r, -, rfl⟩ := map_eq_some_iff.mp hd
    rfl

theorem Inv.scanFlush {rowLock : Bool} (h : Inv base t)
    (hstep : t.stepDelete (.scanFlush rowLock) = some t') : Inv base t' := by
  refine h.stepDelete hstep ?_ ?_
  · intro d hd
    obtain ⟨s, hs, rfl⟩ := map_eq_some_iff.mp hd
    exact (stepDelete_forEach hs).1
  · intro d hd
    obtain ⟨s, hs, rfl⟩ := map_eq_some_iff.mp hd
    exact (stepDelete_forEach hs).2

theorem Inv.statementEnd {rowLock : Bool} (h : Inv base t)
    (hstep : t.stepDelete (.statementEnd rowLock) = some t') : Inv base t' := by
  refine h.stepDelete hstep ?_ ?_
  · intro d hd
    obtain ⟨s, hs, rfl⟩ := map_eq_some_iff.mp hd
    exact (stepDelete_forEach hs).1
  · intro d hd
    obtain ⟨s, hs, rfl⟩ := map_eq_some_iff.mp hd
    exact (stepDelete_forEach hs).2

/-- A step of both sides whose first half writes no row group. -/
theorem stepBoth_eq {b : Delete.Action} (hstep : t.stepBoth a b = some t')
    (hlen : ∀ w, t.write.step a = some w →
      w.session.rowGroups.length ≤ t.write.session.rowGroups.length) :
    t.write.step a = some t'.write ∧ t.delete.step b = some t'.delete := by
  obtain ⟨u, hu, hdel⟩ := bind_eq_some_iff.mp hstep
  obtain ⟨w, hw, hmap⟩ := bind_eq_some_iff.mp hu
  rw [drop_eq_nil_of_le (hlen w hw)] at hmap
  cases hmap
  obtain ⟨d, hd, rfl⟩ := map_eq_some_iff.mp hdel
  exact ⟨hw, hd⟩

theorem Inv.startSubXact (h : Inv base t)
    (hstep : t.stepBoth .startSubXact .startSubXact = some t') :
    Inv base t' := by
  obtain ⟨hw, hd⟩ := stepBoth_eq hstep fun w hw => by
    cases hw
    exact le_refl _
  refine ⟨h.write.step _ hw, h.delete.step _ hd, ?_, ?_⟩
  · rw [← Option.some.inj hw, ← Option.some.inj hd]
    simp [h.stack]
  · rw [← Option.some.inj hw, ← Option.some.inj hd]
    simp [h.groups]

theorem Inv.commitSubXact (h : Inv base t)
    (hstep : t.stepBoth .commitSubXact .commitSubXact = some t') :
    Inv base t' := by
  obtain ⟨hw, hd⟩ := stepBoth_eq hstep fun w hw => by
    simp only [Write.History.step, Write.Session.commitSubXact, Option.map_map] at hw
    obtain ⟨s, -, rfl⟩ := map_eq_some_iff.mp hw
    simp
  have hw' := hw
  have hd' := hd
  simp only [Write.History.step, Write.Session.commitSubXact, Option.map_map] at hw'
  simp only [Delete.History.step, Delete.Session.commitSubXact, Option.map_map, h.stack] at hd'
  obtain ⟨s, hs, hweq⟩ := map_eq_some_iff.mp hw'
  obtain ⟨s', hs', hdeq⟩ := map_eq_some_iff.mp hd'
  cases hs.symm.trans hs'
  have hpos := t.write.session.stack.pos _ (mem_cons_self)
  refine ⟨h.write.step _ hw, h.delete.step _ hd, ?_, ?_⟩
  · rw [← hweq, ← hdeq]
    rfl
  · -- what was there before belongs to no subtransaction
    have hzero : promote t.write.session.stack.current s.current 0 = 0 := promote_of_ne (by omega)
    rw [← hweq, ← hdeq]
    simp [h.groups, hzero, tagged, groupMeta, Function.comp_def]

theorem Inv.abortSubXact (h : Inv base t)
    (hstep : t.stepBoth .abortSubXact .abortSubXact = some t') :
    Inv base t' := by
  obtain ⟨hw, hd⟩ := stepBoth_eq hstep fun w hw => by
    simp only [Write.History.step, Write.Session.abortSubXact, Option.map_map] at hw
    obtain ⟨s, -, rfl⟩ := map_eq_some_iff.mp hw
    exact length_filter_le _ _
  have hw' := hw
  have hd' := hd
  simp only [Write.History.step, Write.Session.abortSubXact, Option.map_map] at hw'
  simp only [Delete.History.step, Delete.Session.abortSubXact, Option.map_map, h.stack] at hd'
  obtain ⟨s, hs, hweq⟩ := map_eq_some_iff.mp hw'
  obtain ⟨s', hs', hdeq⟩ := map_eq_some_iff.mp hd'
  cases hs.symm.trans hs'
  have hpos := t.write.session.stack.pos _ (mem_cons_self)
  refine ⟨h.write.step _ hw, h.delete.step _ hd, ?_, ?_⟩
  · rw [← hweq, ← hdeq]
    rfl
  · have hzero : ¬ 0 = t.write.session.stack.current := by omega
    rw [← hweq, ← hdeq]
    simp [h.groups, hzero, filter_map, tagged, groupMeta, Function.comp_def]
    rfl

theorem Inv.step (h : Inv base t) {a : Action ρ} (hstep : t.step a = some t') : Inv base t' := by
  cases a with
  | openState natts limit | insert natts limit projections row | flushWrites | reserve rowCount =>
    exact (h.stepWrite (by simp) hstep).inv
  | delete rowNumber => exact h.mark hstep
  | update rowNumber natts limit projections row =>
    obtain ⟨u, hu, hstep⟩ := bind_eq_some_iff.mp hstep
    exact ((h.mark hu).stepWrite (by simp) hstep).inv
  | scan rowLock =>
    obtain ⟨u, hu, hstep⟩ := bind_eq_some_iff.mp hstep
    exact (h.stepWrite (by simp) hu).inv.scanFlush hstep
  | statementEnd rowLock =>
    obtain ⟨u, hu, hstep⟩ := bind_eq_some_iff.mp hstep
    exact (h.stepWrite (by simp) hu).inv.statementEnd hstep
  | startSubXact => exact h.startSubXact hstep
  | commitSubXact => exact h.commitSubXact hstep
  | abortSubXact => exact h.abortSubXact hstep

theorem inv_of_run {acts : List (Action ρ)}
    (hrun : Run.run Transaction.step (Transaction.start base) acts = some t) : Inv base t :=
  Run.run_invariant (fun _ _ _ h hs => h.step hs) (Inv.start base) hrun

end PgColumnar.Fetch
