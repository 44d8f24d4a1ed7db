import PgColumnar.Compact.Steps

/-!
# Retiring fully deleted groups changes no answer

A run with passes is compared with the run of the same steps without those of the passes.
The two states differ in groups that are dead for every snapshot, and in traces of passes
that have aborted.

## Main definitions

* `Alike`, `Unseen` — the run with passes beside the run without.

## Main results

* `keep`, `skip` — a step is taken by both, or is not noticed.
* `passes_unseen` — retiring fully deleted groups changes no answer.
-/

namespace PgColumnar.Compact

open Bytes Mvcc PgColumnar.Delete.Serialize List Function Catalog Bool Compact.Group

variable {c c' : Clock} {s s' s₀ s₀' : State} {g g' g₀ : Group} {v w : Version}
  {vis vis' : ℕ → Bool} {t i x y : ℕ} {rows : List ℕ} {found : Option ℕ}

/-! ### What a pass leaves of a group -/

def Version.core (v : Version) : Version := { v with dropped := none }

/-- The group without what passes have done to it. -/
def Group.core (g : Group) : Group :=
  { g with retirer := none, versions := g.versions.map Version.core }

theorem map_core_modify (l : List Version) (j : ℕ) :
    (l.modify j fun v => { v with xmax := some x }).map Version.core =
      (l.map Version.core).modify j fun v => { v with xmax := some x } := by
  apply ext_getElem?
  intro k
  rw [getElem?_map, getElem?_modify, getElem?_modify, getElem?_map]
  cases l[k]? with
  | none => rfl
  | some v => by_cases hjk : j = k <;> simp [hjk, Version.core]

theorem merged_core : g.core.merged x rows found = (g.merged x rows found).core := by
  unfold Group.merged Version.core
  cases found with
  | none => rfl
  | some j =>
    simp only [Group.core, Option.bind_some, getElem?_map, Option.map_map]
    rfl

theorem core_upsert : (g.upsert x rows found).core = g.core.upsert x rows found := by
  cases found with
  | none =>
    show ({ g with retirer := none, versions :=
      (g.versions ++ [g.merged x rows none]).map _ } : Group) =
      { g with retirer := none, versions := g.versions.map _ ++ [g.core.merged x rows none] }
    rw [merged_core, map_append]
    rfl
  | some j =>
    show ({ g with retirer := none, versions := (g.versions.modify j _ ++
        [g.merged x rows (some j)]).map _ } : Group) =
      { g with retirer := none, versions := (g.versions.map _).modify j _ ++
        [g.core.merged x rows (some j)] }
    rw [merged_core, map_append, map_core_modify]
    rfl

theorem dead_core : g.core.Dead c ↔ g.Dead c := by
  constructor
  · rintro ⟨w, hw, hset, hfull⟩
    obtain ⟨v, hv, rfl⟩ := mem_map.mp hw
    exact ⟨v, hv, hset, hfull⟩
  · rintro ⟨v, hv, hset, hfull⟩
    exact ⟨v.core, mem_map.mpr ⟨v, hv, rfl⟩, hset, hfull⟩

/-! ### Reading -/

/-- A reader sees what every snapshot sees, and nothing that has aborted. -/
structure Sound (c : Clock) (vis : ℕ → Bool) : Prop where
  settled : ∀ x, c.Settled x → vis x = true
  aborted : ∀ x, c.status x = .aborted → vis x = false

theorem Inv.not_own_of_aborted (h : Inv s) (hx : s.clock.status x = .aborted) :
    x ∉ (s.frames t).flatten := by
  intro hmem
  have hrun := h.frames.running t x hmem
  rw [hx] at hrun
  cases hrun

theorem Inv.sound_self (h : Inv s) (t : ℕ) : Sound s.clock (s.self t) := by
  refine ⟨fun x hx => view_eq_true.mpr (.inl hx.1), fun x hx => view_eq_false.mpr ⟨?_, ?_⟩⟩
  · rw [hx]
    simp
  · exact h.not_own_of_aborted hx

theorem Inv.sound_vis (h : Inv s) {snap : Snapshot}
    (hsnap : snap ∈ s.clock.snapshots ∨ snap = s.clock.latestBut s.lazy) (t : ℕ) :
    Sound s.clock (s.vis snap t) := by
  constructor
  · intro x hx
    have hsees : s.clock.sees snap x := by
      rcases hsnap with hsnap | rfl
      · exact hx.2 snap hsnap
      · exact (Clock.sees_latestBut h.clock _).mpr hx.1
    simp [State.vis, hsees]
  · intro x hx
    have hsees : ¬ s.clock.sees snap x := by
      rintro ⟨hcom, _⟩
      rw [hx] at hcom
      cases hcom
    simp only [State.vis, State.own, hsees, h.not_own_of_aborted hx, decide_false, Bool.or_self]

/-- A version that is replaced is followed by one that deletes as much. -/
theorem GroupOk.exists_live (h : GroupOk c g)
    (hdrop : ∀ v ∈ g.versions, v.dropped.any vis = false) (n j : ℕ) (hv : g.versions[j]? = some v)
    (hn : g.versions.length - j ≤ n) (hmin : vis v.xmin = true) :
    ∃ w ∈ g.versions, w.live vis = true ∧ w.Covers v := by
  induction n generalizing j v with
  | zero =>
    have := (List.getElem?_eq_some_iff.mp hv).1
    omega
  | succ n ih =>
    by_cases hmax : v.xmax.any vis = true
    · obtain ⟨y, hy, hvis⟩ := (Option.any_eq_true_iff_get _ _).mp hmax |>.elim
        (fun hs hg => (⟨v.xmax.get hs, Option.get_mem hs, hg⟩ : ∃ y ∈ v.xmax, vis y = true))
      obtain ⟨k, u, hu, hlt, hmin', hcov⟩ := h.chain j v hv y hy
      obtain ⟨w, hw, hlive, hcov'⟩ := ih k hu (by omega) (by rw [hmin']; exact hvis)
      exact ⟨w, hw, hlive, fun b hb => hcov' b (hcov b hb)⟩
    · have hmem := mem_of_getElem? hv
      exact ⟨v, hmem, Version.live_eq_true.mpr ⟨hmin, by simpa using hmax, hdrop v hmem⟩,
        fun _ hb => hb⟩

/-- Nobody finds a row of a dead group. -/
theorem GroupOk.reads_of_dead (h : GroupOk c g) (hdead : g.Dead c) (hvis : Sound c vis) :
    g.reads vis = [] := by
  unfold Group.reads
  split
  · next hgroup =>
    unfold Group.visible at hgroup
    rw [and_eq_true, not_eq_true', any_eq_false] at hgroup
    -- who sees the group sees no version of it dropped
    have hdrop : ∀ v ∈ g.versions, v.dropped.any vis = false := by
      intro v hv
      rw [any_eq_false]
      intro y hy
      rcases h.dropped v hv y hy with hab | hret
      · exact hvis.aborted y hab
      · exact hgroup.2 y hret
    obtain ⟨v, hv, hset, hfull⟩ := hdead
    obtain ⟨j, hj⟩ := mem_iff_getElem?.mp hv
    obtain ⟨w, hw, hlive, hcov⟩ := h.exists_live hdrop (g.versions.length - j) j hj (Nat.le_refl _)
      (hvis.settled _ hset)
    rw [filter_eq_nil_iff]
    intro k hk
    have hdel : g.deleted vis k = true :=
      any_eq_true.mpr ⟨w, hw, by
        rw [hlive, hcov k (hfull k (mem_range.mp hk))]
        rfl⟩
    simp [hdel]
  · rfl

theorem GroupOk.live_core (h : GroupOk c g) (hlive : ¬ g.Dead c) (hv : v ∈ g.versions)
    (hvis : Sound c vis) : v.core.live vis = v.live vis := by
  have hdrop : v.dropped.any vis = false := by
    rw [any_eq_false]
    intro y hy
    rcases h.dropped v hv y hy with hab | hret
    · exact hvis.aborted y hab
    · rcases (h.retirer y hret).2 with hab | hdead
      · exact hvis.aborted y hab
      · exact absurd hdead hlive
  simp [Version.live, Version.core, hdrop]

theorem GroupOk.visible_core (h : GroupOk c g) (hlive : ¬ g.Dead c) (hvis : Sound c vis) :
    g.core.visible vis = g.visible vis := by
  have hret : g.retirer.any vis = false := by
    rw [any_eq_false]
    intro y hy
    rcases (h.retirer y hy).2 with hab | hdead
    · exact hvis.aborted y hab
    · exact absurd hdead hlive
  simp [Group.visible, Group.core, hret]

theorem GroupOk.reads_core (h : GroupOk c g) (hlive : ¬ g.Dead c) (hvis : Sound c vis) :
    g.core.reads vis = g.reads vis := by
  have hdel : ∀ k, g.core.deleted vis k = g.deleted vis k := by
    intro k
    show (g.versions.map Version.core).any _ = g.versions.any _
    rw [any_map]
    apply Bool.eq_iff_iff.mpr
    rw [any_eq_true, any_eq_true]
    constructor
    · rintro ⟨v, hv, hb⟩
      refine ⟨v, hv, ?_⟩
      rw [← h.live_core hlive hv hvis]
      exact hb
    · rintro ⟨v, hv, hb⟩
      refine ⟨v, hv, ?_⟩
      rw [← h.live_core hlive hv hvis] at hb
      exact hb
  unfold Group.reads
  rw [h.visible_core hlive hvis]
  simp only [hdel]
  rfl

/-! ### The two runs -/

/-- The same group in the run with passes and in the one without. -/
structure Alike (c : Clock) (g g₀ : Group) : Prop where
  rowCount : g₀.rowCount = g.rowCount
  inserter : g₀.inserter = g.inserter
  plain : g₀.core = g₀
  same : g.core = g₀ ∨ g.Dead c ∧ g₀.Dead c

structure FlushAlike (s : State) (f f₀ : Flush) : Prop where
  group : f₀.group = f.group
  rows : f₀.rows = f.rows
  read : f₀.found.isSome = f.found.isSome
  found : f₀.found = f.found ∨ ∀ g, s.groups[f.group]? = some g → g.Dead s.clock

structure Matches (s s₀ : State) : Prop where
  inv : Inv s
  inv₀ : Inv s₀
  lazy : s₀.lazy = s.lazy
  clock : s₀.clock = s.clock
  frames : s₀.frames = s.frames
  locks : s₀.locks = s.locks
  groups : ∀ (i : ℕ) (g : Group), s.groups[i]? = some g →
    ∃ g₀, s₀.groups[i]? = some g₀ ∧ Alike s.clock g g₀
  length : s₀.groups.length = s.groups.length
  idle : ∀ t, s.flushing t = none ↔ s₀.flushing t = none
  flushing : ∀ t f f₀, s.flushing t = some f → s₀.flushing t = some f₀ → FlushAlike s f f₀
  pass₀ : ∀ t, s₀.pass t = none

theorem Alike.dead (h : Alike c g g₀) (hd : g.Dead c) : g₀.Dead c := by
  rcases h.same with rfl | ⟨_, hd₀⟩
  · exact dead_core.mpr hd
  · exact hd₀

theorem Alike.core_eq (h : Alike c g g₀) (hd : ¬ g.Dead c) : g.core = g₀ := by
  rcases h.same with heq | ⟨hdead, _⟩
  · exact heq
  · exact absurd hdead hd

theorem Alike.step (h : Alike c g g₀) (hc : c.Wf) (hn : Clock.Next c c') : Alike c' g g₀ :=
  ⟨h.rowCount, h.inserter, h.plain, h.same.imp_right fun hd => ⟨hd.1.step hc hn, hd.2.step hc hn⟩⟩

namespace Matches

theorem current_eq (h : Matches s s₀) : s₀.current t = s.current t := by
  unfold State.current
  rw [h.frames]

theorem writer_eq (h : Matches s s₀) : s₀.writer t = s.writer t := by
  unfold State.writer
  rw [h.current_eq, h.lazy]

theorem self_eq (h : Matches s s₀) : s₀.self t = s.self t := by
  unfold State.self
  rw [h.frames, h.clock]

theorem vis_eq (h : Matches s s₀) {snap : Snapshot} : s₀.vis snap t = s.vis snap t := by
  funext x
  unfold State.vis State.own
  rw [h.frames, h.clock]

theorem lockFree_eq (h : Matches s s₀) : s₀.lockFree t i = s.lockFree t i := by
  unfold State.lockFree State.own
  rw [h.frames, h.clock, h.locks]

theorem idle_of (h : Matches s s₀) (hi : s.idle t = true) : s₀.idle t = true := by
  rw [State.idle_eq_true] at hi ⊢
  exact ⟨(h.idle t).mp hi.1, h.pass₀ t⟩

theorem group₀ (h : Matches s s₀) (hg : s₀.groups[i]? = some g₀) :
    ∃ g, s.groups[i]? = some g ∧ Alike s.clock g g₀ := by
  have hlt : i < s.groups.length := by
    rw [← h.length]
    exact (List.getElem?_eq_some_iff.mp hg).1
  obtain ⟨a, ha, halike⟩ := h.groups i _ (getElem?_eq_getElem hlt)
  rw [hg] at ha
  cases ha
  exact ⟨_, getElem?_eq_getElem hlt, halike⟩

/-- The steps that leave the groups alone, taken on both sides. -/
theorem tick (h : Matches s s₀) (ht : Tick s s') (hi : Inv s') (hi₀ : Inv s₀')
    (hz : s₀'.lazy = s₀.lazy) (hc : s₀'.clock = s'.clock) (hf : s₀'.frames = s'.frames)
    (hl : s₀'.locks = s₀.locks)
    (hg : s₀'.groups = s₀.groups)
    (hfl : ∀ t, s'.flushing t = s.flushing t ∧ s₀'.flushing t = s₀.flushing t ∨
      s'.flushing t = none ∧ s₀'.flushing t = none)
    (hp : ∀ t, s₀'.pass t = none) : Matches s' s₀' where
  inv := hi
  inv₀ := hi₀
  lazy := by rw [hz, ht.lazy, h.lazy]
  clock := hc
  frames := hf
  locks := by rw [hl, ht.locks, h.locks]
  groups := by
    intro i g hgi
    rw [ht.groups] at hgi
    obtain ⟨g₀, hg₀, halike⟩ := h.groups i g hgi
    refine ⟨g₀, ?_, halike.step h.inv.clock ht.next⟩
    rw [hg]
    exact hg₀
  length := by rw [hg, ht.groups, h.length]
  idle := by
    intro t
    rcases hfl t with ⟨h1, h2⟩ | ⟨h1, h2⟩
    · rw [h1, h2]
      exact h.idle t
    · rw [h1, h2]
  flushing := by
    intro t f f₀ h1 h2
    rcases hfl t with ⟨e1, e2⟩ | ⟨e1, _⟩
    · rw [e1] at h1
      rw [e2] at h2
      obtain ⟨hgr, hrows, hread, hfound⟩ := h.flushing t f f₀ h1 h2
      refine ⟨hgr, hrows, hread, hfound.imp_right fun hdead g hgi => ?_⟩
      rw [ht.groups] at hgi
      exact (hdead g hgi).step h.inv.clock ht.next
    · rw [e1] at h1
      cases h1
  pass₀ := hp

theorem step_tick {a : Action} (h : Matches s s₀) (ha : a.isTick = true) (hl : a.Listed s)
    (hs : step s a = some s') : ∃ s₀', step s₀ a = some s₀' ∧ Matches s' s₀' := by
  have ht := h.inv.tick_of_step ha hl hs
  have hi := h.inv.step hs hl
  -- the flushes stay, or that of the transaction is given up on both sides
  have hreset : ∀ u t, update s.flushing t none u = s.flushing u ∧
      update s₀.flushing t none u = s₀.flushing u ∨
      update s.flushing t none u = none ∧ update s₀.flushing t none u = none := by
    intro u t
    by_cases hu : u = t
    · exact .inr ⟨by rw [hu, update_self], by rw [hu, update_self]⟩
    · exact .inl ⟨update_of_ne hu _ _, update_of_ne hu _ _⟩
  have hnopass : ∀ u t, update s₀.pass t none u = none := by
    intro u t
    by_cases hu : u = t
    · rw [hu, update_self]
    · rw [update_of_ne hu]
      exact h.pass₀ u
  cases a with
  | begin =>
    cases hs
    refine ⟨_, rfl, h.tick ht hi (h.inv₀.step (a := .begin) rfl trivial) rfl ?_ ?_ rfl rfl
      (fun _ => .inl ⟨rfl, rfl⟩) h.pass₀⟩
    · show s₀.clock.begin = s.clock.begin
      rw [h.clock]
    · show update s₀.frames s₀.clock.next _ = update s.frames s.clock.next _
      rw [h.frames, h.clock]
  | beginSub t =>
    obtain ⟨hne, hidle, rfl⟩ := step_beginSub.mp hs
    have hs₀ := step_beginSub.mpr ⟨by rw [h.frames]; exact hne,
      ⟨h.idle_of hidle.1, by rw [h.lazy]; exact hidle.2⟩, rfl⟩
    refine ⟨_, hs₀, h.tick ht hi (h.inv₀.step hs₀ trivial) rfl ?_ ?_ rfl rfl
      (fun _ => .inl ⟨rfl, rfl⟩) h.pass₀⟩
    · show s₀.clock.begin = s.clock.begin
      rw [h.clock]
    · show update s₀.frames t ([s₀.clock.next] :: s₀.frames t) = update s.frames t _
      rw [h.frames, h.clock]
  | commitSub t =>
    obtain ⟨f, f', fs, hfr, hidle, rfl⟩ := step_commitSub.mp hs
    have hs₀ := step_commitSub.mpr ⟨f, f', fs, by rw [h.frames]; exact hfr, h.idle_of hidle, rfl⟩
    refine ⟨_, hs₀, h.tick ht hi (h.inv₀.step hs₀ trivial) rfl h.clock ?_ rfl rfl
      (fun _ => .inl ⟨rfl, rfl⟩)
      h.pass₀⟩
    show update s₀.frames t _ = update s.frames t _
    rw [h.frames]
  | abortSub t =>
    obtain ⟨f, f', fs, hfr, rfl⟩ := step_abortSub.mp hs
    have hs₀ := step_abortSub.mpr ⟨f, f', fs, by rw [h.frames]; exact hfr, rfl⟩
    refine ⟨_, hs₀, h.tick ht hi (h.inv₀.step hs₀ trivial) rfl ?_ ?_ rfl rfl (fun u => hreset u t)
      (fun u => hnopass u t)⟩
    · show s₀.clock.finish f .aborted = s.clock.finish f .aborted
      rw [h.clock]
    · show update s₀.frames t _ = update s.frames t _
      rw [h.frames]
  | commit t =>
    obtain ⟨f, hfr, hidle, rfl⟩ := step_commit.mp hs
    have hs₀ := step_commit.mpr ⟨f, by rw [h.frames]; exact hfr, h.idle_of hidle, rfl⟩
    refine ⟨_, hs₀, h.tick ht hi (h.inv₀.step hs₀ trivial) rfl ?_ ?_ rfl rfl
      (fun _ => .inl ⟨rfl, rfl⟩) h.pass₀⟩
    · show s₀.clock.finish f .committed = s.clock.finish f .committed
      rw [h.clock]
    · show update s₀.frames t _ = update s.frames t _
      rw [h.frames]
  | abort t =>
    obtain ⟨hne, rfl⟩ := step_abort.mp hs
    have hs₀ := step_abort.mpr ⟨by rw [h.frames]; exact hne, rfl⟩
    refine ⟨_, hs₀, h.tick ht hi (h.inv₀.step hs₀ trivial) rfl ?_ ?_ rfl rfl (fun u => hreset u t)
      (fun u => hnopass u t)⟩
    · show s₀.clock.finish (s₀.frames t).flatten .aborted =
        s.clock.finish (s.frames t).flatten .aborted
      rw [h.clock, h.frames]
    · show update s₀.frames t _ = update s.frames t _
      rw [h.frames]
  | takeSnapshot =>
    cases hs
    have hl₀ : s₀.clock.Lists s₀.lazy := by
      rw [h.clock, h.lazy]
      exact hl
    refine ⟨_, rfl, h.tick ht hi (h.inv₀.step (a := .takeSnapshot) rfl hl₀) rfl ?_ h.frames rfl rfl
      (fun _ => .inl ⟨rfl, rfl⟩) h.pass₀⟩
    show s₀.clock.takeSnapshotBut s₀.lazy = s.clock.takeSnapshotBut s.lazy
    rw [h.clock, h.lazy]
  | dropSnapshot i =>
    cases hs
    refine ⟨_, rfl, h.tick ht hi (h.inv₀.step (a := .dropSnapshot i) rfl trivial) rfl ?_
      h.frames rfl rfl
      (fun _ => .inl ⟨rfl, rfl⟩) h.pass₀⟩
    show s₀.clock.dropSnapshot i = s.clock.dropSnapshot i
    rw [h.clock]
  | _ => cases ha

theorem step_insert {n : ℕ} (h : Matches s s₀) (hs : step s (.insert t n) = some s') :
    ∃ s₀', step s₀ (.insert t n) = some s₀' ∧ Matches s' s₀' := by
  obtain ⟨x, hx, hidle, rfl⟩ := Compact.step_insert.mp hs
  have hs₀ := (Compact.step_insert (n := n)).mpr ⟨x, h.writer_eq.trans hx, h.idle_of hidle, rfl⟩
  refine ⟨_, hs₀, h.inv.step hs trivial, h.inv₀.step hs₀ trivial, h.lazy, h.clock, h.frames,
    h.locks, ?_, ?_, h.idle, ?_,
    h.pass₀⟩
  · intro i g hg
    rcases getElem?_concat_eq_some.mp hg with hg | ⟨rfl, rfl⟩
    · obtain ⟨g₀, hg₀, halike⟩ := h.groups i g hg
      exact ⟨g₀, getElem?_concat_eq_some.mpr (.inl hg₀), halike⟩
    · exact ⟨_, getElem?_concat_eq_some.mpr (.inr ⟨h.length.symm, rfl⟩), rfl, rfl, rfl, .inl rfl⟩
  · show (s₀.groups ++ _).length = (s.groups ++ _).length
    rw [length_append, length_append, h.length]
  · intro t f f₀ hf hf₀
    obtain ⟨hgr, hrows, hread, hfound⟩ := h.flushing t f f₀ hf hf₀
    refine ⟨hgr, hrows, hread, hfound.imp_right fun hdead g hg => ?_⟩
    rcases getElem?_concat_eq_some.mp hg with hg | ⟨hlen, _⟩
    · exact hdead g hg
    · -- the group of a flush is an old one
      obtain ⟨a, ha⟩ := h.inv.flush t f hf
      have hlt := (List.getElem?_eq_some_iff.mp ha.group).1
      omega

/-- One flush is put in the place of another on both sides. -/
theorem setFlushing {f : Flush} (h : Matches s s₀) {f₀ : Flush} (halike : FlushAlike s f f₀)
    (hi : Inv { s with flushing := update s.flushing t (some f) })
    (hi₀ : Inv { s₀ with flushing := update s₀.flushing t (some f₀) }) :
    Matches { s with flushing := update s.flushing t (some f) }
      { s₀ with flushing := update s₀.flushing t (some f₀) } :=
  { h with
    inv := hi
    inv₀ := hi₀
    idle := by
      intro u
      show update s.flushing t (some f) u = none ↔ update s₀.flushing t (some f₀) u = none
      by_cases hu : u = t
      · rw [hu, update_self, update_self]
        simp
      · rw [update_of_ne hu, update_of_ne hu]
        exact h.idle u
    flushing := by
      intro u a a₀ ha ha₀
      have ha' : update s.flushing t (some f) u = some a := ha
      have ha₀' : update s₀.flushing t (some f₀) u = some a₀ := ha₀
      have hold : FlushAlike s a a₀ := by
        by_cases hu : u = t
        · rw [hu, update_self] at ha' ha₀'
          cases ha'
          cases ha₀'
          exact halike
        · rw [update_of_ne hu] at ha' ha₀'
          exact h.flushing u a a₀ ha' ha₀'
      exact ⟨hold.group, hold.rows, hold.read, hold.found⟩ }

theorem step_flushCheck (h : Matches s s₀) (hs : step s (.flushCheck t i rows) = some s') :
    ∃ s₀', step s₀ (.flushCheck t i rows) = some s₀' ∧ Matches s' s₀' := by
  obtain ⟨x, g, hx, hg, ⟨hidle, hfree, hrows, hvis⟩, rfl⟩ := Compact.step_flushCheck.mp hs
  obtain ⟨g₀, hg₀, halike⟩ := h.groups i g hg
  have hvis₀ : g₀.visible (s₀.self t) = true := by
    unfold Group.visible at hvis
    rw [and_eq_true] at hvis
    have hret : g₀.retirer = none := by
      rw [← halike.plain]
      rfl
    unfold Group.visible
    rw [h.self_eq, halike.inserter, hvis.1, hret]
    rfl
  have hcur := (State.writer_eq_some.mp hx).1
  have hcur₀ := h.current_eq.trans hcur
  have hfree₀ : s₀.lockFree t i = true := by
    rw [h.lockFree_eq]
    exact hfree
  have hrows₀ : ∀ k ∈ rows, k < g₀.rowCount := by
    rw [halike.rowCount]
    exact hrows
  have hs₀ := Compact.step_flushCheck.mpr
    ⟨x, g₀, h.writer_eq.trans hx, hg₀, ⟨h.idle_of hidle, hfree₀, hrows₀, hvis₀⟩, rfl⟩
  have hlock : Matches { s with locks := (i, x) :: s.locks }
    { s₀ with locks := (i, x) :: s₀.locks } := by
    refine ⟨h.inv.lock hcur hfree, h.inv₀.lock hcur₀ hfree₀, h.lazy, h.clock, h.frames, ?_,
      h.groups, h.length, h.idle, ?_, h.pass₀⟩
    · show (i, x) :: s₀.locks = (i, x) :: s.locks
      rw [h.locks]
    · intro u a a₀ ha ha₀
      obtain ⟨h1, h2, h3, h4⟩ := h.flushing u a a₀ ha ha₀
      exact ⟨h1, h2, h3, h4⟩
  exact ⟨_, hs₀, hlock.setFlushing (t := t)
    (⟨rfl, rfl, rfl, .inl rfl⟩ : FlushAlike _ ⟨i, rows, none⟩ ⟨i, rows, none⟩)
    (h.inv.flushCheck hcur hg hfree hrows) (h.inv₀.flushCheck hcur₀ hg₀ hfree₀ hrows₀)⟩

/-- A group that is not dead has the same current version on both sides. -/
theorem findIdx?_eq (h : Matches s s₀) (halike : Alike s.clock g g₀) (hg : s.groups[i]? = some g)
    (hd : ¬ g.Dead s.clock) :
    g₀.versions.findIdx? (Version.live (s₀.self t)) =
      g.versions.findIdx? (Version.live (s.self t)) := by
  have hok := h.inv.groups g (mem_of_getElem? hg)
  rw [← halike.core_eq hd, h.self_eq]
  show (g.versions.map Version.core).findIdx? _ = _
  rw [findIdx?_map]
  apply findIdx?_congr
  intro v hv
  exact hok.live_core hd hv (h.inv.sound_self t)

theorem flush₀ {f : Flush} (h : Matches s s₀) (hf : s.flushing t = some f) :
    ∃ f₀, s₀.flushing t = some f₀ ∧ FlushAlike s f f₀ := by
  cases hf₀ : s₀.flushing t with
  | none =>
    rw [(h.idle t).mpr hf₀] at hf
    cases hf
  | some f₀ => exact ⟨f₀, rfl, h.flushing t f f₀ hf hf₀⟩

theorem step_flushRead (h : Matches s s₀) (hs : step s (.flushRead t) = some s') :
    ∃ s₀', step s₀ (.flushRead t) = some s₀' ∧ Matches s' s₀' := by
  obtain ⟨i, rows, g, hf, hg, rfl⟩ := Compact.step_flushRead.mp hs
  obtain ⟨g₀, hg₀, halike⟩ := h.groups i g hg
  obtain ⟨⟨i₀, rows₀, found₀⟩, hf₀, hgr, hrows, hread, _⟩ := h.flush₀ hf
  cases hgr
  cases hrows
  have hfound₀ : found₀ = none := by simpa using hread
  rw [hfound₀] at hf₀
  have hs₀ := Compact.step_flushRead.mpr ⟨i, rows, g₀, hf₀, hg₀, rfl⟩
  refine ⟨_, hs₀, h.setFlushing ⟨rfl, rfl, rfl, ?_⟩ (h.inv.step hs trivial)
    (h.inv₀.step hs₀ trivial)⟩
  by_cases hd : g.Dead s.clock
  · refine .inr fun a ha => ?_
    rw [hg] at ha
    cases ha
    exact hd
  · exact .inl (congrArg some (h.findIdx?_eq halike hg hd))

/-- Without passes a flush can replace the version it found. -/
theorem replaceable₀ {f : Flush} (h : Matches s s₀) (hok : FlushOk s₀ t f g₀)
    (hplain : g₀.core = g₀)
    {j : ℕ} (hj : f.found = some (some j)) (hv : g₀.versions[j]? = some v) :
    s₀.replaceable t v = true := by
  obtain ⟨w, hw, hmin, hmax⟩ := hok.found j hj
  rw [hv] at hw
  cases hw
  have hmem := mem_of_getElem? hv
  have hdrop : v.dropped = none := by
    rw [← hplain] at hmem
    obtain ⟨u, _, rfl⟩ := mem_map.mp hmem
    rfl
  have hpend : s₀.pending v.xmax = false := by
    unfold State.pending
    rw [any_eq_false] at hmax ⊢
    intro y hy
    -- a transaction that runs and replaces the version is the one that flushes
    rw [decide_eq_false_iff_not]
    intro hrun
    have hown := hok.owns h.inv₀ ⟨v, hmem, .inr hy⟩ hrun
    have hself : s₀.self t y = true := view_eq_true.mpr (.inr hown)
    rw [hmax y hy] at hself
    cases hself
  have hlive : v.live (s₀.self t) = true :=
    Version.live_eq_true.mpr ⟨hmin, hmax, by rw [hdrop]; rfl⟩
  unfold State.replaceable
  rw [hlive, hpend, hdrop]
  rfl

theorem step_flushWrite (h : Matches s s₀) (hs : step s (.flushWrite t) = some s') :
    ∃ s₀', step s₀ (.flushWrite t) = some s₀' ∧ Matches s' s₀' := by
  obtain ⟨x, i, rows, found, g, hx, hf, hg, hrep, rfl⟩ := Compact.step_flushWrite.mp hs
  obtain ⟨g₀, hg₀, halike⟩ := h.groups i g hg
  obtain ⟨⟨i₀, rows₀, o₀⟩, hf₀, hgr, hrows, hread, hfound⟩ := h.flush₀ hf
  cases hgr
  cases hrows
  obtain ⟨found₀, rfl⟩ := Option.isSome_iff_exists.mp hread
  obtain ⟨a, hok₀⟩ := h.inv₀.flush t _ hf₀
  have heq : a = g₀ := Option.some.inj (hok₀.group.symm.trans hg₀)
  subst heq
  have hs₀ := Compact.step_flushWrite.mpr ⟨x, i, rows, found₀, a, h.writer_eq.trans hx, hf₀, hg₀,
    fun j hj v hv => h.replaceable₀ hok₀ halike.plain (congrArg some hj) hv, rfl⟩
  have hnew : Alike s.clock (g.upsert x rows found) (a.upsert x rows found₀) := by
    refine ⟨by simpa using halike.rowCount, by simpa using halike.inserter, ?_, ?_⟩
    · rw [core_upsert, halike.plain]
    · by_cases hd : g.Dead s.clock
      · exact .inr ⟨hd.upsert, (halike.dead hd).upsert⟩
      · have hsame : found₀ = found := by
          rcases hfound with hfound | hdead
          · exact Option.some.inj hfound
          · exact absurd (hdead g hg) hd
        rw [core_upsert, halike.core_eq hd, hsame]
        exact .inl rfl
  refine ⟨_, hs₀, h.inv.step hs trivial, h.inv₀.step hs₀ trivial, h.lazy, h.clock, h.frames,
    h.locks, ?_, ?_, ?_, ?_, h.pass₀⟩
  · intro j b hb
    rcases (getElem?_set_eq_some hg).mp hb with ⟨rfl, rfl⟩ | ⟨hij, hb⟩
    · exact ⟨_, (getElem?_set_eq_some hg₀).mpr (.inl ⟨rfl, rfl⟩), hnew⟩
    · obtain ⟨b₀, hb₀, hba⟩ := h.groups j b hb
      exact ⟨b₀, (getElem?_set_eq_some hg₀).mpr (.inr ⟨hij, hb₀⟩), hba⟩
  · show (s₀.groups.set i _).length = (s.groups.set i _).length
    rw [length_set, length_set, h.length]
  · intro u
    show update s.flushing t none u = none ↔ update s₀.flushing t none u = none
    by_cases hu : u = t
    · rw [hu, update_self, update_self]
    · rw [update_of_ne hu, update_of_ne hu]
      exact h.idle u
  · intro u f f₀ hfu hfu₀
    have hfu' : update s.flushing t none u = some f := hfu
    have hfu₀' : update s₀.flushing t none u = some f₀ := hfu₀
    by_cases hu : u = t
    · rw [hu, update_self] at hfu'
      cases hfu'
    · rw [update_of_ne hu] at hfu' hfu₀'
      obtain ⟨h1, h2, h3, h4⟩ := h.flushing u f f₀ hfu' hfu₀'
      refine ⟨h1, h2, h3, h4.imp_right fun hdead b hb => ?_⟩
      rcases (getElem?_set_eq_some hg).mp hb with ⟨rfl, rfl⟩ | ⟨_, hb⟩
      · exact (hdead g hg).upsert
      · exact hdead b hb

/-- A step of a pass is not noticed by the run without passes. -/
theorem skip {a : Action} (h : Matches s s₀) (ha : a.ofPass = true) (hl : a.Listed s)
    (hs : step s a = some s') :
    Matches s' s₀ := by
  have hi := h.inv.step hs hl
  obtain ⟨t, o, ⟨rfl, _⟩ | ⟨x, i, g, rest, hor, hx, hg, hp, rfl, hr, rfl⟩⟩ := step_pass h.inv ha hs
  · exact ⟨hi, h.inv₀, h.lazy, h.clock, h.frames, h.locks, h.groups, h.length, h.idle,
      fun u f f₀ hf hf₀ => ⟨(h.flushing u f f₀ hf hf₀).group, (h.flushing u f f₀ hf hf₀).rows,
        (h.flushing u f f₀ hf hf₀).read, (h.flushing u f f₀ hf hf₀).found⟩, h.pass₀⟩
  · obtain ⟨b, hb, hdead⟩ := (h.inv.pass t _ hp).todo _ rfl i mem_cons_self
    rw [hg] at hb
    cases hb
    refine ⟨hi, h.inv₀, h.lazy, h.clock, h.frames, h.locks, ?_, ?_, h.idle, ?_, h.pass₀⟩
    · intro j b hb
      rcases (getElem?_set_eq_some hg).mp hb with ⟨rfl, rfl⟩ | ⟨_, hb⟩
      · obtain ⟨g₀, hg₀, halike⟩ := h.groups i g hg
        exact ⟨g₀, hg₀, halike.rowCount, halike.inserter, halike.plain,
          .inr ⟨hdead.retire, halike.dead hdead⟩⟩
      · exact h.groups j b hb
    · show s₀.groups.length = (s.groups.set i _).length
      rw [length_set, h.length]
    · intro u f f₀ hf hf₀
      obtain ⟨h1, h2, h3, h4⟩ := h.flushing u f f₀ hf hf₀
      refine ⟨h1, h2, h3, h4.imp_right fun hall b hb => ?_⟩
      rcases (getElem?_set_eq_some hg).mp hb with ⟨rfl, rfl⟩ | ⟨_, hb⟩
      · exact hdead.retire
      · exact hall b hb

/-- Every other step is taken by both. -/
theorem keep {a : Action} (h : Matches s s₀) (ha : a.ofPass = false) (hl : a.Listed s)
    (hs : step s a = some s') :
    ∃ s₀', step s₀ a = some s₀' ∧ Matches s' s₀' := by
  by_cases htick : a.isTick = true
  · exact h.step_tick htick hl hs
  · cases a with
    | insert t n => exact h.step_insert hs
    | flushCheck t i rows => exact h.step_flushCheck hs
    | flushRead t => exact h.step_flushRead hs
    | flushWrite t => exact h.step_flushWrite hs
    | passHorizon _ _ | passList _ | passRetire _ | passEnd _ | hint _ _ _ => cases ha
    | _ => exact absurd rfl htick

theorem init (lazy : ℕ → Bool) : Matches (State.init lazy) (State.init lazy) :=
  ⟨inv_init lazy, inv_init lazy, rfl, rfl, rfl, rfl, nofun, rfl, fun _ =>
    Iff.rfl, nofun, fun _ => rfl⟩

/-! ### Answers and flushes -/

theorem reads_eq (h : Matches s s₀) {snap : Snapshot}
    (hsnap : snap ∈ s.clock.snapshots ∨ snap = s.clock.latestBut s.lazy) (t : ℕ) :
    s.reads snap t = s₀.reads snap t := by
  unfold State.reads
  apply ext_getElem?
  intro i
  rw [getElem?_map, getElem?_map, h.vis_eq]
  have hvis := h.inv.sound_vis hsnap t
  cases hg : s.groups[i]? with
  | none =>
    have hg₀ : s₀.groups[i]? = none := by
      rw [getElem?_eq_none_iff] at hg ⊢
      rw [h.length]
      exact hg
    rw [hg₀]
  | some g =>
    obtain ⟨g₀, hg₀, halike⟩ := h.groups i g hg
    have hok := h.inv.groups g (mem_of_getElem? hg)
    have hok₀ := h.inv₀.groups g₀ (mem_of_getElem? hg₀)
    rw [h.clock] at hok₀
    rw [hg₀, Option.map_some, Option.map_some]
    congr 1
    by_cases hd : g.Dead s.clock
    · rw [hok.reads_of_dead hd hvis, hok₀.reads_of_dead (halike.dead hd) hvis]
    · rw [← halike.core_eq hd, hok.reads_core hd hvis]

/-- A group that a pass has retired, or is retiring, has no row for anybody. -/
theorem reads_of_retired (h : Matches s s₀) (hg : s.groups[i]? = some g)
    (hg₀ : s₀.groups[i]? = some g₀) (hy : g.retirer = some y) (hab : s.clock.status y ≠ .aborted)
    (hvis : Sound s.clock vis) : g₀.reads vis = [] := by
  obtain ⟨a, ha, halike⟩ := h.groups i g hg
  rw [hg₀] at ha
  cases ha
  have hok := h.inv.groups g (mem_of_getElem? hg)
  have hok₀ := h.inv₀.groups g₀ (mem_of_getElem? hg₀)
  rw [h.clock] at hok₀
  rcases (hok.retirer y hy).2 with habort | hdead
  · exact absurd habort hab
  · exact hok₀.reads_of_dead (halike.dead hdead) hvis

end Matches

/-- The transaction and the group of a step of a flush. -/
def Action.flushes (s : State) : Action → Option (ℕ × ℕ)
  | .flushCheck t i _ => some (t, i)
  | .flushRead t | .flushWrite t => (s.flushing t).map fun f => (t, f.group)
  | _ => none

namespace Matches

/-- Where some row is left, both sides hold the same group. -/
theorem not_dead_of_reads (h : Matches s s₀) (hg₀ : s₀.groups[i]? = some g₀)
    (hrow : g₀.reads (s₀.self t) ≠ []) : ∃ g, s.groups[i]? = some g ∧ Alike s.clock g g₀ ∧
      ¬ g.Dead s.clock := by
  obtain ⟨g, hg, halike⟩ := h.group₀ hg₀
  refine ⟨g, hg, halike, fun hd => hrow ?_⟩
  have hok₀ := h.inv₀.groups g₀ (mem_of_getElem? hg₀)
  have hvis := h.inv₀.sound_self t
  rw [h.clock] at hok₀ hvis
  exact hok₀.reads_of_dead (halike.dead hd) hvis

theorem replaceable_of (h : Matches s s₀) (hg : s.groups[i]? = some g)
    (halike : Alike s.clock g g₀) (hd : ¬ g.Dead s.clock) {j : ℕ} (hv : g.versions[j]? = some v)
    (hrep : ∀ w, g₀.versions[j]? = some w → s₀.replaceable t w = true) :
    s.replaceable t v = true := by
  have hok := h.inv.groups g (mem_of_getElem? hg)
  have hmem := mem_of_getElem? hv
  have hcore : g₀.versions[j]? = some v.core := by
    rw [← halike.core_eq hd]
    show (g.versions.map _)[j]? = _
    rw [getElem?_map, hv]
    rfl
  have hrep := hrep _ hcore
  unfold State.replaceable at hrep ⊢
  rw [h.self_eq, hok.live_core hd hmem (h.inv.sound_self t)] at hrep
  -- a pass that has dropped the version has aborted
  have hdrop : s.pending v.dropped = false := by
    unfold State.pending
    rw [any_eq_false]
    intro y hy
    have hab : s.clock.status y = .aborted := by
      rcases hok.dropped v hmem y hy with hab | hret
      · exact hab
      · exact (hok.retirer y hret).2.resolve_right hd
    rw [hab]
    rfl
  have hmax : s₀.pending v.core.xmax = s.pending v.xmax := by
    unfold State.pending
    rw [h.clock]
    rfl
  rw [hmax] at hrep
  simp only [and_eq_true] at hrep ⊢
  exact ⟨hrep.1, by rw [hdrop]; rfl⟩

theorem flush_succeeds (h : Matches s s₀) {a : Action} (ha : a.flushes s₀ = some (t, i))
    (hp : s.pass t = none) (hg₀ : s₀.groups[i]? = some g₀) (hrow : g₀.reads (s₀.self t) ≠ [])
    (hs : (step s₀ a).isSome = true) : (step s a).isSome = true := by
  obtain ⟨g, hg, halike, hd⟩ := h.not_dead_of_reads hg₀ hrow
  have hok := h.inv.groups g (mem_of_getElem? hg)
  obtain ⟨s₀', hs₀⟩ := Option.isSome_iff_exists.mp hs
  -- the group is not dead, so a flush of it is at the same point in both runs
  have hflush : ∀ f₀, s₀.flushing t = some f₀ → f₀.group = i →
      ∃ f, s.flushing t = some f ∧ f = f₀ := by
    intro f₀ hf₀ hi
    cases hf : s.flushing t with
    | none =>
      rw [(h.idle t).mp hf] at hf₀
      cases hf₀
    | some f =>
      obtain ⟨h1, h2, _, h4⟩ := h.flushing t f f₀ hf hf₀
      refine ⟨f, rfl, ?_⟩
      rcases h4 with h4 | h4
      · cases f
        cases f₀
        simp only at h1 h2 h4
        rw [h1, h2, h4]
      · exact absurd (h4 g (by rw [← h1, hi]; exact hg)) hd
  cases a with
  | flushCheck t' i' rows =>
    cases ha
    obtain ⟨x, b, hx, hb, ⟨hidle, hfree, hrows, hvis⟩, _⟩ := Compact.step_flushCheck.mp hs₀
    rw [hg₀] at hb
    cases hb
    have hidle' : s.idle t = true :=
      State.idle_eq_true.mpr ⟨(h.idle t).mpr (State.idle_eq_true.mp hidle).1, hp⟩
    have hvis' : g.visible (s.self t) = true := by
      rw [h.self_eq, ← halike.core_eq hd, hok.visible_core hd (h.inv.sound_self t)] at hvis
      exact hvis
    rw [Compact.step_flushCheck.mpr ⟨x, g, h.writer_eq.symm.trans hx, hg, ⟨hidle',
      by rw [← h.lockFree_eq]; exact hfree, by rw [← halike.rowCount]; exact hrows, hvis'⟩, rfl⟩]
    rfl
  | flushRead t' =>
    obtain ⟨f₀, hf₀, heq⟩ := Option.map_eq_some_iff.mp ha
    cases heq
    obtain ⟨i', rows, b, hf₀', hb, _⟩ := Compact.step_flushRead.mp hs₀
    obtain ⟨f, hf, rfl⟩ := hflush f₀ hf₀ rfl
    rw [hf₀] at hf₀'
    cases hf₀'
    rw [Compact.step_flushRead.mpr ⟨i', rows, g, hf, hg, rfl⟩]
    rfl
  | flushWrite t' =>
    obtain ⟨f₀, hf₀, heq⟩ := Option.map_eq_some_iff.mp ha
    cases heq
    obtain ⟨x, i', rows, found, b, hx, hf₀', hb, hrep, _⟩ := Compact.step_flushWrite.mp hs₀
    obtain ⟨f, hf, rfl⟩ := hflush f₀ hf₀ rfl
    rw [hf₀] at hf₀'
    cases hf₀'
    rw [hg₀] at hb
    cases hb
    rw [Compact.step_flushWrite.mpr ⟨x, i', rows, found, g, h.writer_eq.symm.trans hx, hf, hg,
      fun j hj v hv => h.replaceable_of hg halike hd hv fun w hw => hrep j hj w hw, rfl⟩]
    rfl
  | _ => cases ha

end Matches

/-- The passes of the run have not been noticed in `s`.  The run of the same steps without
those of the passes reaches `s₀`, and of the two: every reader finds the same rows, under
every snapshot that is held and under one taken now; a group that a pass has retired, unless
it aborted, has no row for any of them; and a step of a flush on a group that has a row left
succeeds in the first if it does in the second. -/
def Unseen (s s₀ : State) : Prop :=
  s₀.clock = s.clock ∧
    (∀ snap, snap ∈ s.clock.snapshots ∨ snap = s.clock.latestBut s.lazy → ∀ t,
      s.reads snap t = s₀.reads snap t) ∧
    (∀ (i : ℕ) (g g₀ : Group), s.groups[i]? = some g → s₀.groups[i]? = some g₀ →
      ∀ y ∈ g.retirer, s.clock.status y ≠ .aborted →
      ∀ snap, snap ∈ s.clock.snapshots ∨ snap = s.clock.latestBut s.lazy → ∀ t,
        g₀.reads (s₀.vis snap t) = []) ∧
    ∀ (a : Action) (t i : ℕ) (g₀ : Group), a.flushes s₀ = some (t, i) → s.pass t = none →
      s₀.groups[i]? = some g₀ → g₀.reads (s₀.self t) ≠ [] →
      (step s₀ a).isSome = true → (step s a).isSome = true

/-- **Retiring fully deleted groups changes no answer**, in a run in which every snapshot
lists the lazy vacuums that are under way. -/
theorem passes_unseen (lazy : ℕ → Bool) (acts : List Action) (s : State)
    (hok : Run.AllSteps step (fun s a => a.Listed s) (State.init lazy) acts)
    (hr : Run.run step (State.init lazy) acts = some s) :
    ∃ s₀, Run.run step (State.init lazy) (acts.filter fun a => !a.ofPass) = some s₀ ∧
      Unseen s s₀ := by
  obtain ⟨s₀, hr₀, h⟩ := Run.run_filter (R := Matches) (fun a : Action => !a.ofPass)
    (fun s s₀ a s' hm hl ha hs => hm.keep (a := a) (by simpa using ha) hl hs)
    (fun s s₀ a s' hm hl ha hs => hm.skip (a := a) (by simpa using ha) hl hs)
    (Matches.init lazy) hok hr
  refine ⟨s₀, hr₀, h.clock, fun snap hsnap t => h.reads_eq hsnap t, ?_, ?_⟩
  · intro i g g₀ hg hg₀ y hy hab snap hsnap t
    rw [h.vis_eq]
    exact h.reads_of_retired hg hg₀ hy hab (h.inv.sound_vis hsnap t)
  · intro a t i g₀ ha hp hg₀ hrow hs
    exact h.flush_succeeds ha hp hg₀ hrow hs

instance (s : State) : ∀ a : Action, Decidable (a.Listed s)
  | .takeSnapshot => inferInstanceAs (Decidable (s.clock.Lists s.lazy))
  | .flushCheck t _ _ | .passList t | .passRetire t =>
    inferInstanceAs (Decidable (s.clock.Lists (s.others t)))
  | .begin | .beginSub _ | .commitSub _ | .abortSub _ | .commit _ | .abort _ | .dropSnapshot _
  | .insert _ _ | .flushRead _ | .flushWrite _ | .passHorizon _ _ | .passEnd _
  | .hint _ _ _ => isTrue trivial

/-- Transaction 1 deletes the rows of group 0 in subtransactions, one of which aborts.  The
lazy vacuum 4 retires the group while transaction 5 deletes a row of group 1. -/
def busyPass : List Action :=
  [.begin, .insert 0 2, .insert 0 1, .commit 0, .begin, .beginSub 1, .flushCheck 1 0 [0],
    .flushRead 1, .flushWrite 1, .commitSub 1, .beginSub 1, .flushCheck 1 0 [1], .flushRead 1,
    .flushWrite 1, .abortSub 1, .flushCheck 1 0 [1], .flushRead 1, .flushWrite 1, .commit 1,
    .begin, .passHorizon 4 4, .takeSnapshot, .begin, .flushCheck 5 1 [0], .passList 4,
    .flushRead 5, .passRetire 4, .passEnd 4]

theorem passes_unseen_busyPass : ∃ s s₀, Run.run step (State.init (· == 4)) busyPass = some s ∧
    Run.run step (State.init (· == 4)) (busyPass.filter fun a => !a.ofPass) = some s₀ ∧
    s.groups.map (·.retirer) = [some 4, none] ∧
    s₀.reads (s.clock.latestBut s.lazy) 6 = [[], [0]] := by
  have hcase : (Run.run step (State.init (· == 4)) busyPass).map (fun s =>
      (s.groups.map (·.retirer), s.reads (s.clock.latestBut s.lazy) 6)) =
      some ([some 4, none], [[], [0]]) := by decide +kernel
  obtain ⟨s, hr, heq⟩ := Option.map_eq_some_iff.mp hcase
  obtain ⟨hret, hreads⟩ := Prod.mk.injEq _ _ _ _ |>.mp heq
  obtain ⟨s₀, hr₀, _, hsame, _⟩ := passes_unseen (· == 4) busyPass s (by decide +kernel) hr
  refine ⟨s, s₀, hr, hr₀, hret, ?_⟩
  rw [← hsame _ (.inr rfl) 6]
  exact hreads

/-- Group 0 has lost its rows, and the lazy vacuum 2 has retired it.  Transaction 3 has come
and gone, so that a snapshot taken now leaves the vacuum out; under it somebody reads the row
of the group, but not that of its delete vector.  Then the vacuum commits. -/
def hintedPass : List Action :=
  [.begin, .insert 0 2, .commit 0, .begin, .flushCheck 1 0 [0, 1], .flushRead 1, .flushWrite 1,
    .commit 1, .begin, .passHorizon 2 2, .passList 2, .passRetire 2, .passEnd 2, .begin, .commit 3,
    .takeSnapshot, .hint 0 0 none, .commit 2]

/-- The deleted rows are back. -/
theorem not_unseen_hintedPass :
    ∃ s s₀, Run.run step (State.init (· == 2)) hintedPass = some s ∧
      Run.run step (State.init (· == 2)) (hintedPass.filter fun a => !a.ofPass) = some s₀ ∧
      s.reads (s.clock.latestBut s.lazy) 4 = [[0, 1]] ∧ ¬ Unseen s s₀ := by
  have hcase : (Run.run step (State.init (· == 2)) hintedPass).map (fun s =>
      (s.reads (s.clock.latestBut s.lazy) 4, s.clock.latestBut s.lazy)) =
      some ([[0, 1]], ⟨4, []⟩) := by decide +kernel
  have hcase₀ : (Run.run step (State.init (· == 2)) (hintedPass.filter fun a => !a.ofPass)).map
      (fun s => s.reads ⟨4, []⟩ 4) = some [[]] := by decide +kernel
  obtain ⟨s, hr, heq⟩ := Option.map_eq_some_iff.mp hcase
  obtain ⟨s₀, hr₀, heq₀⟩ := Option.map_eq_some_iff.mp hcase₀
  obtain ⟨hreads, hsnap⟩ := Prod.mk.injEq _ _ _ _ |>.mp heq
  refine ⟨s, s₀, hr, hr₀, hreads, fun h => ?_⟩
  have hsame := h.2.1 _ (.inr rfl) 4
  rw [hreads, hsnap, heq₀] at hsame
  cases hsame

end PgColumnar.Compact
