import PgColumnar.Compact.FullyDeleted

/-!
# What the deletion of fully deleted groups relies on

A pass infers from a count that a group is dead.  The count is right because the
versions of a delete vector are kept in order by the chunk-group lock: whatever becomes
of the transactions still running, at most one version is current (`OneLive`).

## Main definitions

* `GroupOk`, `FlushOk`, `PassOk`, `Inv` — the versions of a group, and what a flush or pass under
  way knows of them.
* `Tick` — a step that leaves the groups alone.
-/

namespace PgColumnar.Compact

open Bytes Mvcc PgColumnar.Delete.Serialize List Function Catalog Nat Clock

/-! ### Versions and groups -/

/-- Every snapshot sees a version that deletes all rows of the group. -/
def Group.Dead (c : Clock) (g : Group) : Prop :=
  ∃ v ∈ g.versions, c.Settled v.xmin ∧ ∀ k < g.rowCount, bitAt v.vector.bitmap k = true

def Version.Covers (w v : Version) : Prop :=
  ∀ k, bitAt v.vector.bitmap k = true → bitAt w.vector.bitmap k = true

/-- The transaction has written or replaced a version of the group. -/
def Group.Writes (g : Group) (x : ℕ) : Prop := ∃ v ∈ g.versions, v.xmin = x ∨ v.xmax = some x

/-- At most one version is current. -/
def Group.OneLive (vis : ℕ → Bool) (g : Group) : Prop := g.versions.countP (Version.live vis) ≤ 1

structure VersionOk (c : Clock) (rowCount : ℕ) (v : Version) : Prop where
  xmin : c.status v.xmin ≠ .unused
  xmax : ∀ y ∈ v.xmax, c.status y ≠ .unused
  dropped : ∀ y ∈ v.dropped, c.status y ≠ .unused
  bits : ∀ k, bitAt v.vector.bitmap k = true → k < rowCount
  counted : v.vector.deletedCount = popcount v.vector.bitmap

structure GroupOk (c : Clock) (g : Group) : Prop where
  version : ∀ v ∈ g.versions, VersionOk c g.rowCount v
  /-- Who replaces a version leaves a later one with all its bits. -/
  chain : ∀ (j : ℕ) (v : Version), g.versions[j]? = some v → ∀ y ∈ v.xmax,
    ∃ k w, g.versions[k]? = some w ∧ j < k ∧ w.xmin = y ∧ w.Covers v
  retirer : ∀ y ∈ g.retirer, c.status y ≠ .unused ∧ (c.status y = .aborted ∨ g.Dead c)
  dropped : ∀ v ∈ g.versions, ∀ y ∈ v.dropped, c.status y = .aborted ∨ g.retirer = some y

/-- The open frames hold running ids, each id once. -/
structure FramesOk (c : Clock) (frames : ℕ → List (List ℕ)) : Prop where
  running : ∀ t, ∀ x ∈ (frames t).flatten, c.status x = .running
  nodup : ∀ t, (frames t).flatten.Nodup
  disjoint : ∀ t u x, x ∈ (frames t).flatten → x ∈ (frames u).flatten → t = u
  fresh : ∀ t, c.next ≤ t → frames t = []

structure LocksOk (s : State) : Prop where
  used : ∀ i x, (i, x) ∈ s.locks → s.clock.status x ≠ .unused
  held : ∀ (i : ℕ) (g : Group), s.groups[i]? = some g → ∀ x, g.Writes x →
    s.clock.status x = .running → (i, x) ∈ s.locks
  exclusive : ∀ i x y, (i, x) ∈ s.locks → (i, y) ∈ s.locks → s.clock.status x = .running →
    s.clock.status y = .running → ∃ t, x ∈ (s.frames t).flatten ∧ y ∈ (s.frames t).flatten

/-- A flush works on a group whose lock it holds.  Whether it found a version to replace
stays as it was, up to what a pass does. -/
structure FlushOk (s : State) (t : ℕ) (f : Flush) (g : Group) : Prop where
  group : s.groups[f.group]? = some g
  lock : ∃ x, s.current t = some x ∧ (f.group, x) ∈ s.locks
  rows : ∀ k ∈ f.rows, k < g.rowCount
  none_live : f.found = some none → ∀ v ∈ g.versions, v.live (s.self t) = false
  found : ∀ j, f.found = some (some j) → ∃ v, g.versions[j]? = some v ∧
    s.self t v.xmin = true ∧ v.xmax.any (s.self t) = false

/-- What has ended below `h` is settled, lazy vacuums apart. -/
def Before (lazy : ℕ → Bool) (c : Clock) (h : ℕ) : Prop :=
  h ≤ c.next ∧ ∀ x < h, lazy x = false → c.status x ≠ .running ∧
    (c.status x = .committed → c.Settled x)

structure PassOk (lazy : ℕ → Bool) (c : Clock) (groups : List Group) (p : Pass) : Prop where
  horizon : Before lazy c p.oldestXmin
  todo : ∀ l ∈ p.todo, ∀ i ∈ l, ∃ g, groups[i]? = some g ∧ g.Dead c

structure Inv (s : State) : Prop where
  clock : s.clock.Wf
  frames : FramesOk s.clock s.frames
  groups : ∀ g ∈ s.groups, GroupOk s.clock g
  locks : LocksOk s
  /-- The frames that a transaction keeps if its innermost ones abort. -/
  oneLive : ∀ (i : ℕ) (g : Group), s.groups[i]? = some g → ∀ t fs, fs <:+ s.frames t →
    g.OneLive (view s.clock fs)
  flush : ∀ t, ∀ f ∈ s.flushing t, ∃ g, FlushOk s t f g
  pass : ∀ t, ∀ p ∈ s.pass t, PassOk s.lazy s.clock s.groups p
  /-- Lazy vacuums write no rows. -/
  plain : ∀ g ∈ s.groups, ∀ v ∈ g.versions, s.lazy v.xmin = false

variable {c c' : Clock} {s s' : State} {g g' : Group} {v w : Version} {fs : List (List ℕ)}
  {vis vis' : ℕ → Bool} {t i x y : ℕ}

theorem view_eq_true : view c fs x = true ↔ c.status x = .committed ∨ x ∈ fs.flatten := by
  simp [view]

theorem view_eq_false : view c fs x = false ↔ c.status x ≠ .committed ∧ x ∉ fs.flatten := by
  simp [view]

theorem Version.live_eq_true : v.live vis = true ↔
    vis v.xmin = true ∧ v.xmax.any vis = false ∧ v.dropped.any vis = false := by
  simp only [Version.live, Bool.and_eq_true, Bool.not_eq_true', and_assoc]

theorem any_eq_false {o : Option ℕ} : o.any vis = false ↔ ∀ y ∈ o, vis y = false := by
  cases o <;> simp

/-! ### A step of the clock -/

theorem Group.Dead.step (h : g.Dead c) (hc : c.Wf) (hn : Clock.Next c c') : g.Dead c' := by
  obtain ⟨v, hv, hset, hfull⟩ := h
  exact ⟨v, hv, hset.step hc hn, hfull⟩

theorem VersionOk.step {n : ℕ} (h : VersionOk c n v) (hn : Clock.Next c c') : VersionOk c' n v where
  xmin := hn.used h.xmin
  xmax := fun y hy => hn.used (h.xmax y hy)
  dropped := fun y hy => hn.used (h.dropped y hy)
  bits := h.bits
  counted := h.counted

theorem GroupOk.step (h : GroupOk c g) (hc : c.Wf) (hn : Clock.Next c c') : GroupOk c' g where
  version := fun v hv => (h.version v hv).step hn
  chain := h.chain
  retirer := by
    intro y hy
    obtain ⟨hused, hy⟩ := h.retirer y hy
    exact ⟨hn.used hused, hy.imp (hn.aborted hc) fun hd => hd.step hc hn⟩
  dropped := fun v hv y hy => (h.dropped v hv y hy).imp_left (hn.aborted hc)

theorem Before.step {lazy : ℕ → Bool} {h : ℕ} (hb : Before lazy c h) (hc : c.Wf)
    (hn : Clock.Next c c') : Before lazy c' h := by
  refine ⟨hb.1.trans hn.le_next, fun x hx hl => ?_⟩
  obtain ⟨hrun, hset⟩ := hb.2 x hx hl
  refine ⟨fun hrun' => ?_, fun hcom => ?_⟩
  · rcases hn.running hrun' with hold | rfl
    · exact hrun hold
    · exact absurd hb.1 (Nat.not_le_of_lt hx)
  · exact (hset ((hn.of_committed hcom).resolve_right hrun)).step hc hn

theorem PassOk.step {lazy : ℕ → Bool} {groups : List Group} {p : Pass}
    (h : PassOk lazy c groups p) (hc : c.Wf) (hn : Clock.Next c c') : PassOk lazy c' groups p where
  horizon := h.horizon.step hc hn
  todo := by
    intro l hl i hi
    obtain ⟨g, hg, hd⟩ := h.todo l hl i hi
    exact ⟨g, hg, hd.step hc hn⟩

/-! ### One current version -/

/-- A view that agrees on who wrote and replaced the versions, and may see more drops. -/
theorem Group.OneLive.mono (h : g.OneLive vis) (hw : ∀ x, g.Writes x → vis' x = vis x)
    (hd : ∀ v ∈ g.versions, ∀ y ∈ v.dropped, vis y = true → vis' y = true) : g.OneLive vis' := by
  refine le_trans (countP_mono_left fun v hv hlive => ?_) h
  obtain ⟨hmin, hmax, hdrop⟩ := Version.live_eq_true.mp hlive
  refine Version.live_eq_true.mpr ⟨?_, ?_, ?_⟩
  · rw [← hw _ ⟨v, hv, .inl rfl⟩]
    exact hmin
  · rw [any_eq_false] at hmax ⊢
    intro y hy
    rw [← hw y ⟨v, hv, .inr hy⟩]
    exact hmax y hy
  · rw [any_eq_false] at hdrop ⊢
    intro y hy
    by_contra hne
    have := hd v hv y hy (by simpa using hne)
    rw [hdrop y hy] at this
    cases this

variable {gs : List (List ℕ)}

theorem mem_flatten_of_suffix {fs : List (List ℕ)} (h : fs <:+ gs) (hx : x ∈ fs.flatten) :
    x ∈ gs.flatten :=
  h.sublist.flatten.subset hx

theorem view_or_of_suffix {fs : List (List ℕ)} (h : fs <:+ gs) :
    (view c fs x || view c gs x) = view c gs x := by
  apply Bool.eq_iff_iff.mpr
  rw [Bool.or_eq_true, or_iff_right_iff_imp, view_eq_true, view_eq_true]
  exact Or.imp_right (mem_flatten_of_suffix h)

/-- Frames that wrote none of the versions see of them what has committed. -/
theorem view_or_of_not_writes {fs : List (List ℕ)} (h : ∀ x ∈ fs.flatten, ¬ g.Writes x)
    (hx : g.Writes x) : (view c fs x || view c gs x) = view c gs x := by
  apply Bool.eq_iff_iff.mpr
  rw [Bool.or_eq_true, or_iff_right_iff_imp, view_eq_true, view_eq_true]
  rintro (hcom | hmem)
  · exact .inl hcom
  · exact absurd hx (h x hmem)

/-- Two transactions cannot both have written the versions of one group, so they may both
commit. -/
theorem Inv.oneLive_union (h : Inv s) (hg : s.groups[i]? = some g) {t u : ℕ}
    {fs : List (List ℕ)} (hfs : fs <:+ s.frames t) (hgs : gs <:+ s.frames u) :
    g.OneLive fun x => view s.clock fs x || view s.clock gs x := by
  by_cases hone : ∃ x ∈ fs.flatten, g.Writes x
  · by_cases htwo : ∃ y ∈ gs.flatten, g.Writes y
    · -- both have: they are one transaction, and one of the views contains the other
      obtain ⟨x, hx, hwx⟩ := hone
      obtain ⟨y, hy, hwy⟩ := htwo
      have hxt := mem_flatten_of_suffix hfs hx
      have hyu := mem_flatten_of_suffix hgs hy
      have hrx := h.frames.running t x hxt
      have hry := h.frames.running u y hyu
      obtain ⟨o, hox, hoy⟩ := h.locks.exclusive i x y (h.locks.held i g hg x hwx hrx)
        (h.locks.held i g hg y hwy hry) hrx hry
      have htu : t = u :=
        (h.frames.disjoint t o x hxt hox).trans (h.frames.disjoint o u y hoy hyu)
      subst htu
      rcases suffix_or_suffix_of_suffix hfs hgs with hle | hle
      · refine (h.oneLive i g hg t gs hgs).mono (fun x _ => view_or_of_suffix hle) ?_
        intro v _ y _ hvy
        simp only [hvy, Bool.or_true]
      · refine (h.oneLive i g hg t fs hfs).mono (fun x _ => ?_) ?_
        · rw [Bool.or_comm]
          exact view_or_of_suffix hle
        · intro v _ y _ hvy
          simp only [hvy, Bool.true_or]
    · refine (h.oneLive i g hg t fs hfs).mono (fun x hx => ?_) ?_
      · rw [Bool.or_comm]
        exact view_or_of_not_writes (fun y hy hw => htwo ⟨y, hy, hw⟩) hx
      · intro v _ y _ hvy
        simp only [hvy, Bool.true_or]
  · refine (h.oneLive i g hg u gs hgs).mono
      (fun x hx => view_or_of_not_writes (fun y hy hw => hone ⟨y, hy, hw⟩) hx) ?_
    intro v _ y _ hvy
    simp only [hvy, Bool.or_true]

/-! ### Beginnings and ends of transactions -/

/-- What the steps that leave the groups alone do.  A view after the step is one before it,
or that of two transactions of which one has committed. -/
structure Tick (s s' : State) : Prop where
  lazy : s'.lazy = s.lazy
  next : Clock.Next s.clock s'.clock
  frames : FramesOk s'.clock s'.frames
  groups : s'.groups = s.groups
  locks : s'.locks = s.locks
  flushing : ∀ t, ∀ f ∈ s'.flushing t, s.flushing t = some f ∧ s'.frames t = s.frames t
  pass : ∀ t, ∀ p ∈ s'.pass t, s.pass t = some p
  owner : ∀ t x y, x ∈ (s.frames t).flatten → y ∈ (s.frames t).flatten →
    s'.clock.status x = .running → s'.clock.status y = .running →
    x ∈ (s'.frames t).flatten ∧ y ∈ (s'.frames t).flatten
  views : ∀ t fs, fs <:+ s'.frames t → ∃ u gs u' gs', gs <:+ s.frames u ∧ gs' <:+ s.frames u' ∧
    ∀ x, s.clock.status x ≠ .unused → view s'.clock fs x = (view s.clock gs x || view s.clock gs' x)

theorem GroupOk.used_of_writes (h : GroupOk c g) (hx : g.Writes x) : c.status x ≠ .unused := by
  obtain ⟨v, hv, hx | hx⟩ := hx
  · rw [← hx]
    exact (h.version v hv).xmin
  · exact (h.version v hv).xmax x hx

theorem State.current_mem {s : State} (h : s.current t = some x) : x ∈ (s.frames t).flatten := by
  unfold State.current at h
  cases hf : s.frames t with
  | nil =>
    rw [hf] at h
    cases h
  | cons f fs =>
    rw [hf] at h
    rw [flatten_cons]
    exact mem_append_left _ (mem_of_mem_head? h)

variable {f : Flush}

/-- Whoever writes the group of a flush is the transaction that flushes. -/
theorem FlushOk.owns (hf : FlushOk s t f g) (h : Inv s) (hw : g.Writes y)
    (hy : s.clock.status y = .running) : y ∈ (s.frames t).flatten := by
  obtain ⟨x, hcur, hlock⟩ := hf.lock
  have hx := State.current_mem hcur
  have hrx := h.frames.running t x hx
  obtain ⟨u, hxu, hyu⟩ := h.locks.exclusive f.group x y hlock
    (h.locks.held _ g hf.group y hw hy) hrx hy
  have htu := h.frames.disjoint t u x hx hxu
  rw [htu]
  exact hyu

theorem Tick.self_eq (ht : Tick s s') (h : Inv s) (hf : FlushOk s t f g)
    (hfr : s'.frames t = s.frames t) (hw : g.Writes x) : s'.self t x = s.self t x := by
  apply Bool.eq_iff_iff.mpr
  unfold State.self
  rw [view_eq_true, view_eq_true, hfr]
  constructor
  · rintro (hcom | hmem)
    · rcases ht.next.of_committed hcom with hcom | hrun
      · exact .inl hcom
      · exact .inr (hf.owns h hw hrun)
    · exact .inr hmem
  · exact Or.imp_left (ht.next.committed h.clock)

theorem Tick.self_mono (ht : Tick s s') (h : Inv s) (hfr : s'.frames t = s.frames t)
    (hx : s.self t x = true) : s'.self t x = true := by
  unfold State.self at hx ⊢
  rw [view_eq_true] at hx ⊢
  rw [hfr]
  exact hx.imp_left (ht.next.committed h.clock)

theorem Tick.flushOk (ht : Tick s s') (h : Inv s) (hf : FlushOk s t f g)
    (hfr : s'.frames t = s.frames t) : FlushOk s' t f g where
  group := by
    rw [ht.groups]
    exact hf.group
  lock := by
    obtain ⟨x, hcur, hlock⟩ := hf.lock
    refine ⟨x, ?_, ?_⟩
    · unfold State.current at hcur ⊢
      rw [hfr]
      exact hcur
    · rw [ht.locks]
      exact hlock
  rows := hf.rows
  none_live := by
    intro hnone v hv
    have hold := hf.none_live hnone v hv
    rw [← Bool.not_eq_true, Version.live_eq_true] at hold ⊢
    rintro ⟨hmin, hmax, hdrop⟩
    apply hold
    refine ⟨?_, ?_, ?_⟩
    · rw [← ht.self_eq h hf hfr ⟨v, hv, .inl rfl⟩]
      exact hmin
    · rw [any_eq_false] at hmax ⊢
      intro y hy
      rw [← ht.self_eq h hf hfr ⟨v, hv, .inr hy⟩]
      exact hmax y hy
    · rw [any_eq_false] at hdrop ⊢
      intro y hy
      by_contra hne
      have hnew := ht.self_mono h hfr (by simpa using hne)
      rw [hdrop y hy] at hnew
      cases hnew
  found := by
    intro j hj
    obtain ⟨v, hv, hmin, hmax⟩ := hf.found j hj
    have hmem := mem_of_getElem? hv
    refine ⟨v, hv, ?_, ?_⟩
    · rw [ht.self_eq h hf hfr ⟨v, hmem, .inl rfl⟩]
      exact hmin
    · rw [any_eq_false] at hmax ⊢
      intro y hy
      rw [ht.self_eq h hf hfr ⟨v, hmem, .inr hy⟩]
      exact hmax y hy

/-- An id that is in use runs only if it ran before. -/
theorem Tick.running (ht : Tick s s') (h : Inv s) (hx : s.clock.status x ≠ .unused)
    (hrun : s'.clock.status x = .running) : s.clock.status x = .running := by
  rcases ht.next.running hrun with hold | hnew
  · exact hold
  · rw [hnew, h.clock.unused _ (le_refl _)] at hx
    exact absurd rfl hx

theorem Tick.locksOk (ht : Tick s s') (h : Inv s) : LocksOk s' where
  used := by
    intro i x hx
    rw [ht.locks] at hx
    exact ht.next.used (h.locks.used i x hx)
  held := by
    intro i g hg x hw hrun
    rw [ht.groups] at hg
    rw [ht.locks]
    have hused := (h.groups g (mem_of_getElem? hg)).used_of_writes hw
    exact h.locks.held i g hg x hw (ht.running h hused hrun)
  exclusive := by
    intro i x y hx hy hrx hry
    rw [ht.locks] at hx hy
    obtain ⟨t, hxt, hyt⟩ := h.locks.exclusive i x y hx hy
      (ht.running h (h.locks.used i x hx) hrx) (ht.running h (h.locks.used i y hy) hry)
    exact ⟨t, ht.owner t x y hxt hyt hrx hry⟩

theorem Inv.tick (h : Inv s) (ht : Tick s s') : Inv s' where
  clock := h.clock.step ht.next
  frames := ht.frames
  groups := by
    intro g hg
    rw [ht.groups] at hg
    exact (h.groups g hg).step h.clock ht.next
  locks := ht.locksOk h
  oneLive := by
    intro i g hg t fs hfs
    rw [ht.groups] at hg
    have hok := h.groups g (mem_of_getElem? hg)
    obtain ⟨u, gs, u', gs', hgs, hgs', heq⟩ := ht.views t fs hfs
    refine (h.oneLive_union hg hgs hgs').mono (fun x hx => heq x (hok.used_of_writes hx)) ?_
    intro v hv y hy hvis
    rw [heq y ((hok.version v hv).dropped y hy)]
    exact hvis
  flush := by
    intro t f hf
    obtain ⟨hold, hfr⟩ := ht.flushing t f hf
    obtain ⟨g, hg⟩ := h.flush t f hold
    exact ⟨g, ht.flushOk h hg hfr⟩
  pass := by
    intro t p hp
    rw [ht.groups, ht.lazy]
    exact (h.pass t p (ht.pass t p hp)).step h.clock ht.next
  plain := by
    rw [ht.groups, ht.lazy]
    exact h.plain

/-! #### The steps -/

variable {frames : ℕ → List (List ℕ)}

theorem FramesOk.update (h : FramesOk c frames)
    (hrun : ∀ x ∈ fs.flatten, c'.status x = .running) (hnodup : fs.flatten.Nodup)
    (hown : ∀ x ∈ fs.flatten, x ∈ (frames t).flatten ∨ c.status x ≠ .running)
    (hrest : ∀ u ≠ t, ∀ x ∈ (frames u).flatten, c'.status x = .running)
    (ht : c'.next ≤ t → fs = []) (hnext : c.next ≤ c'.next) :
    FramesOk c' (Function.update frames t fs) where
  running := by
    intro u x hx
    by_cases hu : u = t
    · subst hu
      rw [update_self] at hx
      exact hrun x hx
    · rw [update_of_ne hu] at hx
      exact hrest u hu x hx
  nodup := by
    intro u
    by_cases hu : u = t
    · subst hu
      rw [update_self]
      exact hnodup
    · rw [update_of_ne hu]
      exact h.nodup u
  disjoint := by
    -- an id of the new frames belongs to no other transaction
    have hother : ∀ u ≠ t, ∀ x ∈ fs.flatten, x ∉ (frames u).flatten := by
      intro u hu x hx hxu
      rcases hown x hx with hxt | hnot
      · exact hu (h.disjoint u t x hxu hxt)
      · exact hnot (h.running u x hxu)
    intro u w x hxu hxw
    by_cases hu : u = t
    · by_cases hw : w = t
      · rw [hu, hw]
      · rw [hu, update_self] at hxu
        rw [update_of_ne hw] at hxw
        exact absurd hxw (hother w hw x hxu)
    · rw [update_of_ne hu] at hxu
      by_cases hw : w = t
      · rw [hw, update_self] at hxw
        exact absurd hxu (hother u hu x hxw)
      · rw [update_of_ne hw] at hxw
        exact h.disjoint u w x hxu hxw
  fresh := by
    intro u hu
    by_cases hut : u = t
    · subst hut
      rw [update_self]
      exact ht hu
    · rw [update_of_ne hut]
      exact h.fresh u (le_trans hnext hu)

theorem FramesOk.lt_next (h : FramesOk c frames) (ht : frames t ≠ []) : t < c.next :=
  Nat.lt_of_not_le fun hle => ht (h.fresh t hle)

/-- The views of the other transactions are what they were if nothing commits. -/
theorem views_of_update {new : List (List ℕ)}
    (hcom : ∀ x, c'.status x = .committed ↔ c.status x = .committed)
    (hnew : ∀ fs, fs <:+ new → ∃ gs, gs <:+ frames t ∧
      ∀ x, c.status x ≠ .unused → (x ∈ fs.flatten ↔ x ∈ gs.flatten)) :
    ∀ u fs, fs <:+ Function.update frames t new u → ∃ o gs o' gs', gs <:+ frames o ∧
      gs' <:+ frames o' ∧ ∀ x, c.status x ≠ .unused →
        view c' fs x = (view c gs x || view c gs' x) := by
  intro u fs hfs
  by_cases hu : u = t
  · subst hu
    rw [update_self] at hfs
    obtain ⟨gs, hgs, hmem⟩ := hnew fs hfs
    refine ⟨u, gs, u, gs, hgs, hgs, fun x hx => ?_⟩
    rw [Bool.or_self]
    apply Bool.eq_iff_iff.mpr
    rw [view_eq_true, view_eq_true, hcom, hmem x hx]
  · rw [update_of_ne hu] at hfs
    refine ⟨u, fs, u, fs, hfs, hfs, fun x hx => ?_⟩
    rw [Bool.or_self]
    apply Bool.eq_iff_iff.mpr
    rw [view_eq_true, view_eq_true, hcom]

/-- A step that gives the transaction new frames, out of the old ones and ids not used yet. -/
theorem Tick.update {new : List (List ℕ)} (h : Inv s) {fl : ℕ → Option Flush}
    {pa : ℕ → Option Pass} (hn : Clock.Next s.clock c')
    (hrun : ∀ x ∈ new.flatten, c'.status x = .running) (hnodup : new.flatten.Nodup)
    (hown : ∀ x ∈ new.flatten, x ∈ (s.frames t).flatten ∨ s.clock.status x ≠ .running)
    (hends : ∀ x, s.clock.status x = .running → c'.status x = .running ∨ x ∈ (s.frames t).flatten)
    (ht : c'.next ≤ t → new = [])
    (hkeeps : ∀ x ∈ (s.frames t).flatten, c'.status x = .running → x ∈ new.flatten)
    (hfl : ∀ u, ∀ f ∈ fl u, s.flushing u = some f ∧ u ≠ t)
    (hpa : ∀ u, ∀ p ∈ pa u, s.pass u = some p)
    (hviews : ∀ u fs, fs <:+ Function.update s.frames t new u → ∃ o gs o' gs',
      gs <:+ s.frames o ∧ gs' <:+ s.frames o' ∧ ∀ x, s.clock.status x ≠ .unused →
        view c' fs x = (view s.clock gs x || view s.clock gs' x)) :
    Tick s ⟨s.lazy, c', Function.update s.frames t new, s.groups, s.locks, fl, pa⟩ where
  lazy := rfl
  next := hn
  frames := by
    refine h.frames.update hrun hnodup hown ?_ ht hn.le_next
    intro u hu x hx
    rcases hends x (h.frames.running u x hx) with hrun' | hxt
    · exact hrun'
    · exact absurd (h.frames.disjoint u t x hx hxt) hu
  groups := rfl
  locks := rfl
  flushing := by
    intro u f hf
    obtain ⟨hold, hu⟩ := hfl u f hf
    exact ⟨hold, update_of_ne hu _ _⟩
  pass := hpa
  owner := by
    intro u x y hx hy hrx hry
    show x ∈ (Function.update s.frames t new u).flatten ∧
      y ∈ (Function.update s.frames t new u).flatten
    by_cases hu : u = t
    · subst hu
      rw [update_self]
      exact ⟨hkeeps x hx hrx, hkeeps y hy hry⟩
    · rw [update_of_ne hu]
      exact ⟨hx, hy⟩
  views := hviews

/-- A transaction without frames is not flushing. -/
theorem Inv.frames_ne_nil (h : Inv s) (hf : s.flushing t = some f) : s.frames t ≠ [] := by
  obtain ⟨g, hg⟩ := h.flush t f hf
  obtain ⟨x, hcur, _⟩ := hg.lock
  intro hnil
  unfold State.current at hcur
  rw [hnil] at hcur
  cases hcur

theorem begin_committed (hc : c.Wf) : c.begin.status x = .committed ↔ c.status x = .committed := by
  by_cases hx : x = c.next
  · rw [hx, begin_status_next, hc.unused _ (le_refl _)]
    simp
  · rw [begin_status_of_ne hx]

theorem Inv.not_mem_frames_next (h : Inv s) : s.clock.next ∉ (s.frames t).flatten := by
  intro hmem
  have hrun := h.frames.running t _ hmem
  rw [h.clock.unused _ (le_refl _)] at hrun
  cases hrun

/-- A new subtransaction on top of the frames, which may be none. -/
theorem Inv.tick_begin (h : Inv s) (hidle : s.flushing t = none) (ht : t ≤ s.clock.next) :
    Tick s ⟨s.lazy, s.clock.begin, Function.update s.frames t ([s.clock.next] :: s.frames t),
      s.groups,
      s.locks, s.flushing, s.pass⟩ := by
  have hmem : ∀ x, x ∈ ([s.clock.next] :: s.frames t).flatten ↔
      x = s.clock.next ∨ x ∈ (s.frames t).flatten := by simp
  have hbegin : ∀ x, s.clock.status x = .running → s.clock.begin.status x = .running := by
    intro x hx
    rw [begin_status_of_ne]
    · exact hx
    · intro heq
      rw [heq, h.clock.unused _ (le_refl _)] at hx
      cases hx
  refine Tick.update h .begin ?_ ?_ ?_ (fun x hx => .inl (hbegin x hx)) ?_ ?_ ?_ (fun u p hp => hp)
    (views_of_update (fun x => begin_committed h.clock) ?_)
  · intro x hx
    rcases (hmem x).mp hx with hx | hx
    · rw [hx]
      exact begin_status_next
    · exact hbegin x (h.frames.running t x hx)
  · rw [flatten_cons, singleton_append, nodup_cons]
    exact ⟨h.not_mem_frames_next, h.frames.nodup t⟩
  · intro x hx
    rcases (hmem x).mp hx with hx | hx
    · rw [hx, h.clock.unused _ (le_refl _)]
      exact .inr (by simp)
    · exact .inl hx
  · intro hle
    have : s.clock.next + 1 ≤ t := hle
    omega
  · exact fun x hx _ => (hmem x).mpr (.inr hx)
  · intro u f hf
    refine ⟨hf, ?_⟩
    rintro rfl
    rw [hidle] at hf
    cases hf
  · intro fs hfs
    rcases suffix_cons_iff.mp hfs with heq | hfs
    · -- the new id is not used by any version
      refine ⟨s.frames t, suffix_refl _, fun x hx => ?_⟩
      rw [heq, hmem, or_iff_right]
      intro hnext
      rw [hnext, h.clock.unused _ (le_refl _)] at hx
      exact hx rfl
    · exact ⟨fs, hfs, fun x _ => Iff.rfl⟩

theorem Inv.tick_commitSub (h : Inv s) (hidle : s.flushing t = none) {f f' : List ℕ}
    (hfr : s.frames t = f :: f' :: fs) :
    Tick s ⟨s.lazy, s.clock, Function.update s.frames t ((f' ++ f) :: fs), s.groups, s.locks,
      s.flushing,
      s.pass⟩ := by
  have hperm : ((f' ++ f) :: fs).flatten.Perm (s.frames t).flatten := by
    rw [hfr]
    simp only [flatten_cons, ← append_assoc]
    exact perm_append_comm.append_right _
  have hmem : ∀ x, x ∈ ((f' ++ f) :: fs).flatten ↔ x ∈ (s.frames t).flatten :=
    fun x => hperm.mem_iff
  refine Tick.update h .refl (fun x hx => h.frames.running t x ((hmem x).mp hx))
    (hperm.nodup_iff.mpr (h.frames.nodup t)) (fun x hx => .inl ((hmem x).mp hx))
    (fun x hx => .inl hx) ?_ (fun x hx _ => (hmem x).mpr hx) ?_ (fun u p hp => hp)
    (views_of_update (fun x => Iff.rfl) ?_)
  · intro hle
    have := h.frames.lt_next (t := t) (by rw [hfr]; simp)
    omega
  · intro u fl hf
    refine ⟨hf, ?_⟩
    rintro rfl
    rw [hidle] at hf
    cases hf
  · intro gs hgs
    rcases suffix_cons_iff.mp hgs with heq | hgs
    · exact ⟨s.frames t, suffix_refl _, fun x _ => by rw [heq]; exact hmem x⟩
    · refine ⟨gs, ?_, fun x _ => Iff.rfl⟩
      rw [hfr]
      exact hgs.trans ⟨[f, f'], rfl⟩

theorem finish_committed_iff {xs : List ℕ} (hxs : ∀ x ∈ xs, c.status x = .running) :
    (c.finish xs .aborted).status x = .committed ↔ c.status x = .committed := by
  by_cases hx : x ∈ xs
  · rw [finish_status_of_mem hx, hxs x hx]
    simp
  · rw [finish_status_of_not_mem hx]

/-- The innermost frames abort, or all of them. -/
theorem Inv.tick_abort (h : Inv s) {dead rest : List (List ℕ)} (hfr : s.frames t = dead ++ rest) :
    Tick s ⟨s.lazy, s.clock.finish dead.flatten .aborted, Function.update s.frames t rest, s.groups,
      s.locks,
      Function.update s.flushing t none, Function.update s.pass t none⟩ := by
  have hrun : ∀ x ∈ dead.flatten ++ rest.flatten, s.clock.status x = .running := by
    intro x hx
    apply h.frames.running t x
    rw [hfr, flatten_append]
    exact hx
  -- the ids that end and those that stay are apart
  have hdisj : ∀ x ∈ rest.flatten, x ∉ dead.flatten := by
    have hnodup := h.frames.nodup t
    rw [hfr, flatten_append] at hnodup
    intro x hx hd
    exact (nodup_append.mp hnodup).2.2 x hd x hx rfl
  have hdead : ∀ x ∈ dead.flatten, s.clock.status x = .running :=
    fun x hx => hrun x (mem_append_left _ hx)
  have hmem : ∀ x, x ∈ (s.frames t).flatten ↔ x ∈ dead.flatten ∨ x ∈ rest.flatten := by
    intro x
    rw [hfr, flatten_append, mem_append]
  refine Tick.update h (.finish hdead (.inr rfl)) ?_ ?_ (fun x hx => .inl ((hmem x).mpr (.inr hx)))
    ?_ ?_ ?_ ?_ ?_ (views_of_update (fun x => finish_committed_iff hdead) ?_)
  · intro x hx
    rw [finish_status_of_not_mem (hdisj x hx)]
    exact hrun x (mem_append_right _ hx)
  · have hnodup := h.frames.nodup t
    rw [hfr, flatten_append] at hnodup
    exact (nodup_append.mp hnodup).2.1
  · intro x hx
    by_cases hd : x ∈ dead.flatten
    · exact .inr ((hmem x).mpr (.inl hd))
    · rw [finish_status_of_not_mem hd]
      exact .inl hx
  · intro hle
    have hnil := h.frames.fresh t hle
    rw [hfr] at hnil
    exact (append_eq_nil_iff.mp hnil).2
  · intro x hx hnew
    rcases (hmem x).mp hx with hd | hr
    · rw [finish_status_of_mem hd] at hnew
      cases hnew
    · exact hr
  · intro u f hf
    by_cases hu : u = t
    · rw [hu, update_self] at hf
      cases hf
    · rw [update_of_ne hu] at hf
      exact ⟨hf, hu⟩
  · intro u p hp
    by_cases hu : u = t
    · rw [hu, update_self] at hp
      cases hp
    · rw [update_of_ne hu] at hp
      exact hp
  · intro gs hgs
    refine ⟨gs, ?_, fun x _ => Iff.rfl⟩
    rw [hfr]
    exact hgs.trans (suffix_append _ _)

theorem Inv.tick_commit (h : Inv s) (hidle : s.flushing t = none) {f : List ℕ}
    (hfr : s.frames t = [f]) :
    Tick s ⟨s.lazy, s.clock.finish f .committed, Function.update s.frames t [], s.groups, s.locks,
      s.flushing, s.pass⟩ := by
  have hf : ∀ x, x ∈ (s.frames t).flatten ↔ x ∈ f := by
    intro x
    rw [hfr, flatten_cons, flatten_nil, append_nil]
  have hrun : ∀ x ∈ f, s.clock.status x = .running :=
    fun x hx => h.frames.running t x ((hf x).mpr hx)
  have hcom : ∀ x, (s.clock.finish f .committed).status x = .committed ↔
      s.clock.status x = .committed ∨ x ∈ f := by
    intro x
    by_cases hx : x ∈ f
    · rw [finish_status_of_mem hx]
      simp only [hx, or_true]
    · rw [finish_status_of_not_mem hx]
      simp only [hx, or_false]
  refine Tick.update h (.finish hrun (.inl rfl)) (fun x hx => by cases hx) nodup_nil
    (fun x hx => by cases hx) ?_ (fun _ => rfl) ?_ ?_ (fun u p hp => hp) ?_
  · intro x hx
    by_cases hxf : x ∈ f
    · exact .inr ((hf x).mpr hxf)
    · rw [finish_status_of_not_mem hxf]
      exact .inl hx
  · intro x hx hnew
    rw [finish_status_of_mem ((hf x).mp hx)] at hnew
    cases hnew
  · intro u fl hfl
    refine ⟨hfl, ?_⟩
    rintro rfl
    rw [hidle] at hfl
    cases hfl
  · -- what others see is what they saw and what the transaction saw
    intro u gs hgs
    have hview : ∀ x, view (s.clock.finish f .committed) gs x =
        (view s.clock (s.frames t) x || view s.clock gs x) := by
      intro x
      apply Bool.eq_iff_iff.mpr
      rw [Bool.or_eq_true, view_eq_true, view_eq_true, view_eq_true, hcom, hf]
      tauto
    by_cases hu : u = t
    · rw [hu, update_self, suffix_nil] at hgs
      subst hgs
      exact ⟨t, s.frames t, t, [], suffix_refl _, nil_suffix, fun x _ => hview x⟩
    · rw [update_of_ne hu] at hgs
      exact ⟨t, s.frames t, u, gs, suffix_refl _, hgs, fun x _ => hview x⟩

theorem Inv.tick_clock (h : Inv s) (hn : Clock.Next s.clock c')
    (hst : c'.status = s.clock.status) (hle : s.clock.next = c'.next) :
    Tick s { s with clock := c' } where
  lazy := rfl
  next := hn
  frames := by
    refine ⟨fun t x hx => ?_, h.frames.nodup, h.frames.disjoint, fun t ht => ?_⟩
    · show c'.status x = .running
      rw [hst]
      exact h.frames.running t x hx
    · have ht' : c'.next ≤ t := ht
      exact h.frames.fresh t (by rw [hle]; exact ht')
  groups := rfl
  locks := rfl
  flushing := fun t f hf => ⟨hf, rfl⟩
  pass := fun t p hp => hp
  owner := fun t x y hx hy _ _ => ⟨hx, hy⟩
  views := by
    intro t fs hfs
    refine ⟨t, fs, t, fs, hfs, hfs, fun x _ => ?_⟩
    rw [Bool.or_self]
    unfold view
    show (decide (c'.status x = .committed) || _) = _
    rw [hst]

/-! ### Steps on one group -/

theorem Inv.setFlushing (h : Inv s) {o : Option Flush} (ho : ∀ f ∈ o, ∃ g, FlushOk s t f g) :
    Inv { s with flushing := Function.update s.flushing t o } :=
  { h with
    locks := ⟨h.locks.used, h.locks.held, h.locks.exclusive⟩
    flush := by
      intro u f hf
      have hf' : f ∈ Function.update s.flushing t o u := hf
      have hok : ∃ g, FlushOk s u f g := by
        by_cases hu : u = t
        · subst hu
          rw [update_self] at hf'
          exact ho f hf'
        · rw [update_of_ne hu] at hf'
          exact h.flush u f hf'
      obtain ⟨g, hg⟩ := hok
      exact ⟨g, hg.group, hg.lock, hg.rows, hg.none_live, hg.found⟩ }

theorem Inv.setPass (h : Inv s) {o : Option Pass} (ho : ∀ p ∈ o, PassOk s.lazy s.clock s.groups p) :
    Inv { s with pass := Function.update s.pass t o } :=
  { h with
    locks := ⟨h.locks.used, h.locks.held, h.locks.exclusive⟩
    flush := by
      intro u f hf
      obtain ⟨g, hg⟩ := h.flush u f hf
      exact ⟨g, hg.group, hg.lock, hg.rows, hg.none_live, hg.found⟩
    pass := by
      intro u p hp
      have hp' : p ∈ Function.update s.pass t o u := hp
      by_cases hu : u = t
      · subst hu
        rw [update_self] at hp'
        exact ho p hp'
      · rw [update_of_ne hu] at hp'
        exact h.pass u p hp' }

/-- What the flushes and the passes of a group need of the group that takes its place. -/
structure Keeps (s : State) (i : ℕ) (g g' : Group) : Prop where
  dead : g.Dead s.clock → g'.Dead s.clock
  rowCount : g'.rowCount = g.rowCount
  flush : ∀ t, ∀ f ∈ s.flushing t, f.group = i → FlushOk s t f g →
    (f.found = some none → ∀ v ∈ g'.versions, v.live (s.self t) = false) ∧
    ∀ j, f.found = some (some j) → ∃ v, g'.versions[j]? = some v ∧
      s.self t v.xmin = true ∧ v.xmax.any (s.self t) = false

theorem Inv.setGroup (h : Inv s) (g' : Group) (hg : s.groups[i]? = some g)
    (hok : GroupOk s.clock g')
    (hkeeps : Keeps s i g g')
    (hheld : ∀ x, g'.Writes x → s.clock.status x = .running → (i, x) ∈ s.locks)
    (hplain : ∀ v ∈ g'.versions, s.lazy v.xmin = false)
    (hone : ∀ t fs, fs <:+ s.frames t → g'.OneLive (view s.clock fs)) :
    Inv { s with groups := s.groups.set i g' } where
  clock := h.clock
  frames := h.frames
  groups := by
    intro a ha
    rcases (mem_set_iff hg).mp ha with rfl | ⟨j, _, hj⟩
    · exact hok
    · exact h.groups a (mem_of_getElem? hj)
  locks := by
    refine ⟨h.locks.used, ?_, h.locks.exclusive⟩
    intro j a ha x hw hrun
    rcases (getElem?_set_eq_some hg).mp ha with ⟨rfl, rfl⟩ | ⟨_, hj⟩
    · exact hheld x hw hrun
    · exact h.locks.held j a hj x hw hrun
  oneLive := by
    intro j a ha t fs hfs
    rcases (getElem?_set_eq_some hg).mp ha with ⟨rfl, rfl⟩ | ⟨_, hj⟩
    · exact hone t fs hfs
    · exact h.oneLive j a hj t fs hfs
  flush := by
    intro t f hf
    obtain ⟨a, ha⟩ := h.flush t f hf
    by_cases hi : i = f.group
    · have heq : a = g := by
        have := ha.group
        rw [← hi, hg] at this
        exact (Option.some.inj this).symm
      subst heq
      obtain ⟨hnone, hfound⟩ := hkeeps.flush t f hf hi.symm ha
      refine ⟨g', (getElem?_set_eq_some hg).mpr (.inl ⟨hi, rfl⟩), ha.lock, ?_, hnone, hfound⟩
      rw [hkeeps.rowCount]
      exact ha.rows
    · exact ⟨a, (getElem?_set_eq_some hg).mpr (.inr ⟨hi, ha.group⟩), ha.lock, ha.rows,
        ha.none_live, ha.found⟩
  pass := by
    intro t p hp
    obtain ⟨hhor, htodo⟩ := h.pass t p hp
    refine ⟨hhor, fun l hl j hj => ?_⟩
    obtain ⟨a, ha, hdead⟩ := htodo l hl j hj
    by_cases hij : i = j
    · subst hij
      rw [hg] at ha
      cases ha
      exact ⟨g', (getElem?_set_eq_some hg).mpr (.inl ⟨rfl, rfl⟩), hkeeps.dead hdead⟩
    · exact ⟨a, (getElem?_set_eq_some hg).mpr (.inr ⟨hij, ha⟩), hdead⟩
  plain := by
    intro a ha
    rcases (mem_set_iff hg).mp ha with rfl | ⟨j, _, hj⟩
    · exact hplain
    · exact h.plain a (mem_of_getElem? hj)

theorem Inv.insert (h : Inv s) (n x : ℕ) :
    Inv { s with groups := s.groups ++ [⟨n, x, none, []⟩] } where
  clock := h.clock
  frames := h.frames
  groups := by
    refine forall_mem_append.mpr ⟨h.groups, forall_mem_singleton.mpr ?_⟩
    exact ⟨nofun, nofun, nofun, nofun⟩
  locks := by
    refine ⟨h.locks.used, ?_, h.locks.exclusive⟩
    intro i g hg x hw hrun
    rcases getElem?_concat_eq_some.mp hg with hg | ⟨_, rfl⟩
    · exact h.locks.held i g hg x hw hrun
    · obtain ⟨v, hv, _⟩ := hw
      cases hv
  oneLive := by
    intro i g hg t fs hfs
    rcases getElem?_concat_eq_some.mp hg with hg | ⟨_, rfl⟩
    · exact h.oneLive i g hg t fs hfs
    · exact zero_le _
  flush := by
    intro t f hf
    obtain ⟨g, hg⟩ := h.flush t f hf
    exact ⟨g, getElem?_concat_eq_some.mpr (.inl hg.group), hg.lock, hg.rows, hg.none_live, hg.found⟩
  pass := by
    intro t p hp
    obtain ⟨hhor, htodo⟩ := h.pass t p hp
    refine ⟨hhor, fun l hl i hi => ?_⟩
    obtain ⟨g, hg, hdead⟩ := htodo l hl i hi
    exact ⟨g, getElem?_concat_eq_some.mpr (.inl hg), hdead⟩
  plain := forall_mem_append.mpr ⟨h.plain, forall_mem_singleton.mpr nofun⟩

/-- Taking a lock that no other transaction holds. -/
theorem Inv.lock (h : Inv s) (hcur : s.current t = some x) (hfree : s.lockFree t i = true) :
    Inv { s with locks := (i, x) :: s.locks } where
  clock := h.clock
  frames := h.frames
  groups := h.groups
  locks := by
    have hx := State.current_mem hcur
    -- a holder that still runs is the transaction itself
    have hown : ∀ y, (i, y) ∈ (i, x) :: s.locks → s.clock.status y = .running →
        y ∈ (s.frames t).flatten := by
      intro y hy hrun
      rcases mem_cons.mp hy with heq | hy
      · cases heq
        exact hx
      · have := all_eq_true.mp hfree (i, y) hy
        simpa [State.own, hrun] using this
    refine ⟨?_, ?_, ?_⟩
    · intro j y hy
      rcases mem_cons.mp hy with heq | hy
      · cases heq
        show s.clock.status x ≠ .unused
        rw [h.frames.running t x hx]
        simp
      · exact h.locks.used j y hy
    · intro j g hg y hw hrun
      exact mem_cons_of_mem _ (h.locks.held j g hg y hw hrun)
    · intro j y z hy hz hry hrz
      by_cases hj : j = i
      · subst hj
        exact ⟨t, hown y hy hry, hown z hz hrz⟩
      · have hne : ∀ w, (j, w) ∈ (i, x) :: s.locks → (j, w) ∈ s.locks := by
          intro w hw
          rcases mem_cons.mp hw with heq | hw
          · cases heq
            exact absurd rfl hj
          · exact hw
        exact h.locks.exclusive j y z (hne y hy) (hne z hz) hry hrz
  oneLive := h.oneLive
  flush := by
    intro u f hf
    obtain ⟨g, hg⟩ := h.flush u f hf
    obtain ⟨y, hcury, hlock⟩ := hg.lock
    exact ⟨g, hg.group, ⟨y, hcury, mem_cons_of_mem _ hlock⟩, hg.rows, hg.none_live, hg.found⟩
  pass := h.pass
  plain := h.plain

end PgColumnar.Compact
