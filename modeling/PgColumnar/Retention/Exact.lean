import PgColumnar.Retention.Expire

/-!
# What an expire drops, records and counts

What expire finds under its old snapshot stays true of the rows: a group keeps its rows,
and a row that is live now was live then.  It does not stay true of the group: another
transaction may have retired it while expire waited for the lock.

## Main definitions

* `Dropped`, `Recorded`, `Inv` — what an expire has dropped and recorded so far.

## Main results

* `exact_run` — only rows past the cutoff, each group once.
-/

namespace PgColumnar.Retention

open Mvcc List Option Function Catalog

variable {α : Type} {ttl : α → Option ℤ} {zoned : ℕ → Bool} {w w' : World α}

/-! ## The tests of expire -/

variable {n : ℕ}

theorem Group.row?_eq_some {g : Group α} {r : α} :
    g.row? n = some r ↔ g.firstRow ≤ n ∧ g.rows[n - g.firstRow]? = some r := by
  unfold Group.row?
  split
  · next h => simp only [h, true_and]
  · next h => simp only [h, false_and, reduceCtorEq]

/-- A row that is live now was live for every snapshot. -/
theorem World.Live.not_deleted (h : w.Live n) (snap : Snapshot) : w.deleted snap n = false := by
  refine any_eq_false.mpr fun m hm hall => ?_
  rw [Bool.and_eq_true, decide_eq_true_eq, decide_eq_true_eq] at hall
  exact h m hm hall.1 hall.2.1

theorem expired_of_qualifies {p : Pass} {i : ℕ} {g : Group α}
    (hq : w.qualifies ttl zoned p i g = true) {r : α} (hr : g.row? n = some r)
    (hlive : w.Live n) : Expired ttl p.cutoff r := by
  obtain ⟨hle, hget⟩ := Group.row?_eq_some.mp hr
  have hmem : r ∈ g.rows := mem_of_getElem? hget
  rw [World.qualifies, Bool.and_eq_true] at hq
  have hq := hq.2
  split at hq
  · cases hq
  · next maxv hmax =>
    rw [Bool.and_eq_true, decide_eq_true_eq] at hq
    obtain ⟨hnull, hcut⟩ := hq
    cases hval : ttl r with
    | some t =>
      -- the maximum speaks for the values that are there
      have ht : t ∈ g.rows.filterMap ttl := mem_filterMap.mpr ⟨r, hmem, hval⟩
      have := (max?_eq_some_iff.mp hmax).2 t ht
      exact ⟨t, hval, by omega⟩
    | none =>
      -- and the null row would have been found
      have hcount : (g.zoneMap ttl).nullCount ≠ 0 := by
        have hpos : 0 < g.rows.countP fun r => (ttl r).isNone :=
          countP_pos_iff.mpr ⟨r, hmem, by rw [hval]; rfl⟩
        exact Nat.ne_of_gt hpos
      have hnolive : w.groupHasLiveNull ttl p.snapshot g = false := by
        rw [decide_eq_false hcount, Bool.false_or, Bool.and_eq_true] at hnull
        simpa using hnull.2
      have := any_eq_false.mp hnolive (r, n - g.firstRow) (mem_zipIdx_iff_getElem?.mpr hget)
      rw [Nat.add_sub_cancel' hle, hlive.not_deleted, hval] at this
      exact absurd rfl this

/-! ## The invariant -/

/-- The groups that an expire has retired hold no live row within the retention. -/
def Dropped (ttl : α → Option ℤ) (w : World α) : Prop :=
  ∀ x p, w.pass x = some p → ∀ g ∈ w.groups, g.retirer = some x →
    ∀ n r, g.row? n = some r → w.Live n → Expired ttl p.cutoff r

structure Inv (ttl : α → Option ℤ) (w : World α) : Prop where
  wf : w.clock.Wf
  used : ∀ x p, w.pass x = some p → w.clock.status x ≠ .unused
  /-- Groups are retired under the maintenance lock. -/
  retirer : ∀ g ∈ w.groups, ∀ x, g.retirer = some x →
    w.clock.status x = .committed ∨ w.clock.status x = .aborted ∨ w.holder = some x
  unlocked : ∀ x p, w.pass x = some p → p.locked = false →
    p.todo = [] ∧ ∀ g ∈ w.groups, g.retirer ≠ some x
  locked : ∀ x p, w.pass x = some p → p.locked = true → w.clock.status x = .running →
    w.holder = some x
  nodup : ∀ x p, w.pass x = some p → p.todo.Nodup
  todo : ∀ x p, w.pass x = some p → ∀ i ∈ p.todo, ∀ g, w.groups[i]? = some g →
    g.retirer ≠ some x ∧ w.clock.status g.inserter = .committed
  listed : ∀ x p, w.pass x = some p → ∀ i ∈ p.todo, i < w.groups.length
  recordPass : ∀ r ∈ w.records, w.pass r.xid ≠ none
  dropped : Dropped ttl w

/-- The expire that has not aborted records and counts what it has removed. -/
structure Recorded (w : World α) : Prop where
  recorded : ∀ x p, w.pass x = some p → w.clock.status x ≠ .aborted → ∀ i,
    (∃ r ∈ w.records, r.xid = x ∧ r.group = i) ↔ ∃ g, w.groups[i]? = some g ∧ g.retirer = some x
  counted : ∀ x p, w.pass x = some p → w.clock.status x ≠ .aborted → p.retired = w.removedBy x

theorem Inv.init : Inv ttl (World.init : World α) where
  wf := Clock.Wf.init
  used x p h := by simp [World.init] at h
  retirer g hg := by simp [World.init] at hg
  unlocked x p h := by simp [World.init] at h
  locked x p h := by simp [World.init] at h
  nodup x p h := by simp [World.init] at h
  todo x p h := by simp [World.init] at h
  listed x p h := by simp [World.init] at h
  recordPass r h := by simp [World.init] at h
  dropped x p h := by simp [World.init] at h

theorem Recorded.init : Recorded (World.init : World α) where
  recorded x p h := by simp [World.init] at h
  counted x p h := by simp [World.init] at h

/-! ## Time passes -/

variable {holder : Option ℕ}

theorem Inv.tick {c : Clock} (hi : Inv ttl w) (hn : Clock.Next w.clock c)
    (hret : ∀ x, w.holder = some x →
      c.status x = .committed ∨ c.status x = .aborted ∨ holder = some x) :
    Inv ttl { w with clock := c, holder := holder } :=
  { hi with
    wf := hi.wf.step hn
    used x p hp := hn.used (hi.used x p hp)
    retirer g hg x hx := by
      rcases hi.retirer g hg x hx with h | h | h
      · exact .inl (hn.committed hi.wf h)
      · exact .inr (.inl (hn.aborted hi.wf h))
      · exact hret x h
    locked x p hp hl hrun := by
      rcases hn.running hrun with h | rfl
      · rcases hret x (hi.locked x p hp hl h) with hc | ha | hh
        · exact absurd (hrun.symm.trans hc) nofun
        · exact absurd (hrun.symm.trans ha) nofun
        · exact hh
      · exact absurd (hi.wf.unused _ (Nat.le_refl _)) (hi.used _ p hp)
    todo x p hp i hit g hg := (hi.todo x p hp i hit g hg).imp id (hn.committed hi.wf)
    dropped x p hp g hg hx n r hr hlive := hi.dropped x p hp g hg hx n r hr 
      fun m hm hrow hcom => hlive m hm hrow (hn.committed hi.wf hcom) }

theorem Recorded.tick {c : Clock} (hr : Recorded w) (hwf : w.clock.Wf)
    (hn : Clock.Next w.clock c) : Recorded { w with clock := c, holder := holder } := by
  have hab : ∀ x, c.status x ≠ .aborted → w.clock.status x ≠ .aborted :=
    fun x h h' => h (hn.aborted hwf h')
  exact ⟨fun x p hp hx => hr.recorded x p hp (hab x hx),
    fun x p hp hx => hr.counted x p hp (hab x hx)⟩

theorem Inv.finish (hi : Inv ttl w) {x : ℕ} {st : Status} (hx : w.clock.status x = .running)
    (hst : st = .committed ∨ st = .aborted) : Inv ttl (w.finish x st) := by
  refine hi.tick (.finish (fun y hy => by rw [mem_singleton.mp hy]; exact hx) hst) ?_
  intro y hy
  by_cases hyx : y = x
  · rw [hyx, Clock.finish_status_of_mem mem_cons_self]
    exact hst.imp id .inl
  · rw [hy, if_neg (fun h => hyx (Option.some.inj h))]
    exact .inr (.inr rfl)

theorem Recorded.finish (hr : Recorded w) (hwf : w.clock.Wf) {x : ℕ} {st : Status}
    (hx : w.clock.status x = .running) (hst : st = .committed ∨ st = .aborted) :
    Recorded (w.finish x st) :=
  hr.tick hwf (.finish (fun y hy => by rw [mem_singleton.mp hy]; exact hx) hst)

/-! ## Writers -/

theorem Inv.flushRowGroup (hi : Inv ttl w) {g : Group α} (hg : g.retirer = none) :
    Inv ttl { w with groups := w.groups ++ [g] } := by
  have hold : ∀ {g' : Group α} {x : ℕ}, g' ∈ w.groups ++ [g] → g'.retirer = some x →
      g' ∈ w.groups := by
    intro g' x hmem hx
    rcases mem_append.mp hmem with h | h
    · exact h
    · rw [mem_singleton.mp h, hg] at hx
      cases hx
  refine ⟨hi.wf, hi.used, ?_, ?_, hi.locked, hi.nodup, ?_, ?_, hi.recordPass, ?_⟩
  · intro g' hg' x hx
    exact hi.retirer g' (hold hg' hx) x hx
  · intro x p hp hl
    exact ⟨(hi.unlocked x p hp hl).1, fun g' hg' hx =>
      (hi.unlocked x p hp hl).2 g' (hold hg' hx) hx⟩
  · intro x p hp i hit g' hg'
    rcases getElem?_concat_eq_some.mp hg' with h | ⟨h, _⟩
    · exact hi.todo x p hp i hit g' h
    · have := hi.listed x p hp i hit
      omega
  · intro x p hp i hit
    have := hi.listed x p hp i hit
    rw [length_append]
    omega
  · intro x p hp g' hg' hx n r hr hlive
    exact hi.dropped x p hp g' (hold hg' hx) hx n r hr hlive

theorem Recorded.flushRowGroup (hr : Recorded w) {g : Group α} (hg : g.retirer = none) :
    Recorded { w with groups := w.groups ++ [g] } := by
  refine ⟨fun x p hp hx i => ?_, fun x p hp hx => ?_⟩
  · rw [hr.recorded x p hp hx i]
    constructor
    · rintro ⟨g', hg', hret⟩
      exact ⟨g', getElem?_concat_eq_some.mpr (.inl hg'), hret⟩
    · rintro ⟨g', hg', hret⟩
      rcases getElem?_concat_eq_some.mp hg' with h | ⟨_, h⟩
      · exact ⟨g', h, hret⟩
      · rw [h, hg] at hret
        cases hret
  · rw [hr.counted x p hp hx, World.removedBy, World.removedBy, countP_append]
    simp [hg]

theorem Inv.flushDelete (hi : Inv ttl w) (m : Mark) :
    Inv ttl { w with marks := w.marks ++ [m] } := by
  refine ⟨hi.wf, hi.used, hi.retirer, hi.unlocked, hi.locked, hi.nodup, hi.todo, hi.listed,
    hi.recordPass, ?_⟩
  intro x p hp g hg hx n r hr hlive
  exact hi.dropped x p hp g hg hx n r hr fun m' hm' => hlive m' (mem_append_left _ hm')

theorem Recorded.flushDelete (hr : Recorded w) (m : Mark) :
    Recorded { w with marks := w.marks ++ [m] } :=
  ⟨hr.recorded, hr.counted⟩

/-! ## Retiring a group -/

theorem retireGroup_cases (w : World α) (x i : ℕ) : w.retireGroup x i = w.groups ∨
    ∃ g, w.groups[i]? = some g ∧ w.groupVisible w.clock.latest g = true ∧
      w.retireGroup x i = w.groups.set i { g with retirer := some x } := by
  unfold World.retireGroup
  cases hg : w.groups[i]? with
  | none => exact .inl rfl
  | some g =>
    dsimp only
    split
    · next hvis => exact .inr ⟨g, rfl, hvis, rfl⟩
    · exact .inl rfl

/-- A group that is there has not been retired by a transaction that has committed. -/
theorem groupVisible_latest (hwf : w.clock.Wf) {g : Group α}
    (h : w.groupVisible w.clock.latest g = true) {x : ℕ} (hx : g.retirer = some x) :
    w.clock.status x ≠ .committed := by
  rw [World.groupVisible, Bool.and_eq_true, hx] at h
  exact fun hc => of_decide_eq_true h.2 ((Clock.sees_latest hwf).mpr hc)

/-- The holder of the lock retires a group; an expire only one that it has examined. -/
theorem Inv.retire (hi : Inv ttl w) {x i : ℕ} (hh : w.holder = some x)
    (hp : ∀ p, w.pass x = some p → p.locked = true ∧ i ∉ p.todo ∧
      ∀ g, w.groups[i]? = some g → ∀ n r, g.row? n = some r → w.Live n → Expired ttl p.cutoff r) :
    Inv ttl { w with groups := w.retireGroup x i } := by
  rcases retireGroup_cases w x i with heq | ⟨g, hg, _, heq⟩
  · rw [heq]
    exact hi
  rw [heq]
  have hmem : ∀ {g' : Group α}, g' ∈ w.groups.set i { g with retirer := some x } →
      g' = { g with retirer := some x } ∨ g' ∈ w.groups := by
    intro g' h
    rcases (mem_set_iff hg).mp h with h | ⟨j, _, h⟩
    · exact .inl h
    · exact .inr (mem_of_getElem? h)
  refine ⟨hi.wf, hi.used, ?_, ?_, hi.locked, hi.nodup, ?_, ?_, hi.recordPass, ?_⟩
  · intro g' hg' y hy
    rcases hmem hg' with rfl | hg'
    · cases hy
      exact .inr (.inr hh)
    · exact hi.retirer g' hg' y hy
  · intro y p hpy hl
    refine ⟨(hi.unlocked y p hpy hl).1, fun g' hg' hy => ?_⟩
    rcases hmem hg' with rfl | hg'
    · cases hy
      rw [(hp p hpy).1] at hl
      cases hl
    · exact (hi.unlocked y p hpy hl).2 g' hg' hy
  · intro y p hpy j hj g' hg'
    rcases (getElem?_set_eq_some hg).mp hg' with ⟨rfl, rfl⟩ | ⟨_, hg'⟩
    · refine ⟨fun hy => ?_, (hi.todo y p hpy i hj g hg).2⟩
      cases hy
      exact (hp p hpy).2.1 hj
    · exact hi.todo y p hpy j hj g' hg'
  · intro y p hpy j hj
    rw [length_set]
    exact hi.listed y p hpy j hj
  · intro y p hpy g' hg' hy n r hr hlive
    rcases hmem hg' with rfl | hg'
    · cases hy
      exact (hp p hpy).2.2 g hg n r hr hlive
    · exact hi.dropped y p hpy g' hg' hy n r hr hlive

variable {y : ℕ}

/-- What another transaction has removed, and not taken back, stays removed by it. -/
theorem Inv.other_retirer (hi : Inv ttl w) {x : ℕ} (hh : w.holder = some x) (hxy : y ≠ x)
    (hy : w.clock.status y ≠ .aborted) {g : Group α} (hg : g ∈ w.groups)
    (hvis : w.groupVisible w.clock.latest g = true) : g.retirer ≠ some y := by
  intro hret
  rcases hi.retirer g hg y hret with hc | ha | hhy
  · exact groupVisible_latest hi.wf hvis hret hc
  · exact hy ha
  · rw [hh] at hhy
    exact hxy (Option.some.inj hhy).symm

/-- Retiring a group does not change what another expire has removed. -/
theorem Recorded.retire_other (hr : Recorded w) (hi : Inv ttl w) {x i : ℕ}
    (hh : w.holder = some x) {p : Pass} (hp : w.pass y = some p)
    (hy : w.clock.status y ≠ .aborted) (hyx : y ≠ x) :
    (∀ j, (∃ r ∈ w.records, r.xid = y ∧ r.group = j) ↔
      ∃ g, (w.retireGroup x i)[j]? = some g ∧ g.retirer = some y) ∧
    p.retired = (w.retireGroup x i).countP fun g => decide (g.retirer = some y) := by
  rcases retireGroup_cases w x i with heq | ⟨g, hg, hvis, heq⟩
  · rw [heq]
    exact ⟨hr.recorded y p hp hy, hr.counted y p hp hy⟩
  have hold := hi.other_retirer hh hyx hy (mem_of_getElem? hg) hvis
  have hnew : ({ g with retirer := some x } : Group α).retirer ≠ some y :=
    fun h => hyx (Option.some.inj h).symm
  rw [heq]
  refine ⟨fun j => ?_, ?_⟩
  · rw [hr.recorded y p hp hy j]
    constructor
    · rintro ⟨g', hg', hret⟩
      refine ⟨g', (getElem?_set_eq_some hg).mpr (.inr ⟨?_, hg'⟩), hret⟩
      rintro rfl
      cases hg.symm.trans hg'
      exact hold hret
    · rintro ⟨g', hg', hret⟩
      rcases (getElem?_set_eq_some hg).mp hg' with ⟨_, rfl⟩ | ⟨_, hg'⟩
      · exact absurd hret hnew
      · exact ⟨g', hg', hret⟩
  · rw [hr.counted y p hp hy, World.removedBy,
      countP_set_of_neg hg (decide_eq_false hold) (decide_eq_false hnew)]

/-! ## The expire -/

theorem update_eq_some {x : ℕ} {p q : Pass} (h : update w.pass x (some p) y = some q) :
    y = x ∧ q = p ∨ y ≠ x ∧ w.pass y = some q := by
  by_cases hyx : y = x
  · subst hyx
    rw [update_self, Option.some.injEq] at h
    exact .inl ⟨rfl, h.symm⟩
  · rw [update_of_ne hyx] at h
    exact .inr ⟨hyx, h⟩

theorem update_ne_none {x : ℕ} {p : Pass} (h : w.pass y ≠ none) :
    update w.pass x (some p) y ≠ none := by
  by_cases hyx : y = x
  · rw [hyx, update_self]
    nofun
  · rw [update_of_ne hyx]
    exact h

variable {snap : Snapshot}

theorem Inv.expireCall (hi : Inv ttl w) {x : ℕ} (hx : w.clock.status x = .running)
    (hg : ∀ g ∈ w.groups, g.retirer ≠ some x) :
    Inv ttl { w with pass := update w.pass x (some ⟨snap, false, 0, [], 0⟩) } := by
  refine ⟨hi.wf, ?_, hi.retirer, ?_, ?_, ?_, ?_, ?_, fun r hr =>
    update_ne_none (hi.recordPass r hr), ?_⟩
  · intro y p hp
    rcases update_eq_some hp with ⟨rfl, _⟩ | ⟨_, hp⟩
    · rw [hx]
      nofun
    · exact hi.used y p hp
  · intro y p hp hl
    rcases update_eq_some hp with ⟨rfl, rfl⟩ | ⟨_, hp⟩
    · exact ⟨rfl, hg⟩
    · exact hi.unlocked y p hp hl
  · intro y p hp hl
    rcases update_eq_some hp with ⟨rfl, rfl⟩ | ⟨_, hp⟩
    · cases hl
    · exact hi.locked y p hp hl
  · intro y p hp
    rcases update_eq_some hp with ⟨rfl, rfl⟩ | ⟨_, hp⟩
    · exact nodup_nil
    · exact hi.nodup y p hp
  · intro y p hp
    rcases update_eq_some hp with ⟨rfl, rfl⟩ | ⟨_, hp⟩
    · exact nofun
    · exact hi.todo y p hp
  · intro y p hp
    rcases update_eq_some hp with ⟨rfl, rfl⟩ | ⟨_, hp⟩
    · exact nofun
    · exact hi.listed y p hp
  · intro y p hp g hgm hy
    rcases update_eq_some hp with ⟨rfl, rfl⟩ | ⟨_, hp⟩
    · exact absurd hy (hg g hgm)
    · exact hi.dropped y p hp g hgm hy

theorem Recorded.expireCall (hr : Recorded w) (hi : Inv ttl w) {x : ℕ}
    (hx : w.pass x = none) (hg : ∀ g ∈ w.groups, g.retirer ≠ some x) :
    Recorded { w with pass := update w.pass x (some ⟨snap, false, 0, [], 0⟩) } := by
  refine ⟨fun y p hp hy i => ?_, fun y p hp hy => ?_⟩
  · rcases update_eq_some hp with ⟨rfl, rfl⟩ | ⟨_, hp⟩
    · refine iff_of_false ?_ ?_
      · rintro ⟨r, hrm, hry, _⟩
        exact hi.recordPass r hrm (by rw [hry]; exact hx)
      · rintro ⟨g, hgi, hret⟩
        exact hg g (mem_of_getElem? hgi) hret
    · exact hr.recorded y p hp hy i
  · rcases update_eq_some hp with ⟨rfl, rfl⟩ | ⟨_, hp⟩
    · exact (countP_eq_zero.mpr fun g hgm => by simpa using hg g hgm).symm
    · exact hr.counted y p hp hy

theorem nodup_rowGroupList : (w.rowGroupList snap).Nodup := by
  refine List.Nodup.sublist (List.Sublist.map _ filter_sublist) ?_
  rw [zipIdx_map_snd]
  exact nodup_range'

theorem mem_rowGroupList {i : ℕ} (h : i ∈ w.rowGroupList snap) :
    ∃ g, w.groups[i]? = some g ∧ w.groupVisible snap g = true := by
  obtain ⟨⟨g, j⟩, hgj, rfl⟩ := mem_map.mp h
  obtain ⟨hz, hvis⟩ := mem_filter.mp hgj
  exact ⟨g, mem_zipIdx_iff_getElem?.mp hz, hvis⟩

/-- The pass that goes on: the lock is held, and its groups are listed. -/
theorem Inv.setPass (hi : Inv ttl w) {x : ℕ} {p p' : Pass}
    (hp : w.pass x = some p) (hl : p'.locked = true) (hh : holder = some x)
    (hhold : w.holder = none ∨ w.holder = some x)
    (hnd : p'.todo.Nodup)
    (htodo : ∀ i ∈ p'.todo, ∃ g, w.groups[i]? = some g ∧ g.retirer ≠ some x ∧
      w.clock.status g.inserter = .committed)
    (hcut : p'.cutoff = p.cutoff ∨ ∀ g ∈ w.groups, g.retirer ≠ some x) :
    Inv ttl { w with holder := holder, pass := update w.pass x (some p') } := by
  subst hh
  refine ⟨hi.wf, ?_, ?_, ?_, ?_, ?_, ?_, ?_, fun r hr => update_ne_none (hi.recordPass r hr), ?_⟩
  · intro y q hq
    rcases update_eq_some hq with ⟨rfl, _⟩ | ⟨_, hq⟩
    · exact hi.used y p hp
    · exact hi.used y q hq
  · intro g hg y hy
    rcases hi.retirer g hg y hy with h | h | h
    · exact .inl h
    · exact .inr (.inl h)
    · rcases hhold with h' | h'
      · rw [h'] at h
        cases h
      · exact .inr (.inr (h'.symm.trans h))
  · intro y q hq hql
    rcases update_eq_some hq with ⟨rfl, rfl⟩ | ⟨_, hq⟩
    · rw [hl] at hql
      cases hql
    · exact hi.unlocked y q hq hql
  · intro y q hq hql hrun
    rcases update_eq_some hq with ⟨rfl, _⟩ | ⟨hyx, hq⟩
    · rfl
    · have hhy := hi.locked y q hq hql hrun
      rcases hhold with h' | h'
      · rw [h'] at hhy
        cases hhy
      · rw [h'] at hhy
        exact absurd (Option.some.inj hhy).symm hyx
  · intro y q hq
    rcases update_eq_some hq with ⟨rfl, rfl⟩ | ⟨_, hq⟩
    · exact hnd
    · exact hi.nodup y q hq
  · intro y q hq i hit g hg
    rcases update_eq_some hq with ⟨rfl, rfl⟩ | ⟨_, hq⟩
    · obtain ⟨g', hg', h⟩ := htodo i hit
      rw [show w.groups[i]? = some g from hg, Option.some.injEq] at hg'
      subst hg'
      exact h
    · exact hi.todo y q hq i hit g hg
  · intro y q hq i hit
    rcases update_eq_some hq with ⟨rfl, rfl⟩ | ⟨_, hq⟩
    · obtain ⟨g, hg, _⟩ := htodo i hit
      exact (List.getElem?_eq_some_iff.mp hg).1
    · exact hi.listed y q hq i hit
  · intro y q hq g hg hy
    rcases update_eq_some hq with ⟨rfl, rfl⟩ | ⟨_, hq⟩
    · rcases hcut with h | h
      · rw [h]
        exact hi.dropped y p hp g hg hy
      · exact absurd hy (h g hg)
    · exact hi.dropped y q hq g hg hy

/-- The count of a pass is all that its record keeping reads of it. -/
theorem Recorded.setPass (hr : Recorded w) {x : ℕ} {p p' : Pass}
    (hp : w.pass x = some p) (hcount : p'.retired = p.retired) :
    Recorded { w with holder := holder, pass := update w.pass x (some p') } := by
  refine ⟨fun y q hq hy i => ?_, fun y q hq hy => ?_⟩
  · rcases update_eq_some hq with ⟨rfl, rfl⟩ | ⟨_, hq⟩
    · exact hr.recorded y p hp hy i
    · exact hr.recorded y q hq hy i
  · rcases update_eq_some hq with ⟨rfl, rfl⟩ | ⟨_, hq⟩
    · rw [hcount]
      exact hr.counted y p hp hy
    · exact hr.counted y q hq hy

section ExpireGroup

variable {x i : ℕ} {p : Pass} {rest : List ℕ} {g : Group α}

/-- What the step on a group can do: it passes the group over, or it retires and records
a group that qualifies. -/
theorem step_expireGroup (h : step ttl zoned w (.expireGroup x) = some w') :
    ∃ p i rest g, w.pass x = some p ∧ p.todo = i :: rest ∧ w.clock.status x = .running ∧
      w.groups[i]? = some g ∧
      (w' = { w with pass := update w.pass x (some { p with todo := rest }) } ∨
        w.qualifies ttl zoned p i g = true ∧ ∃ d, w' = { w with
          groups := w.retireGroup x i
          records := w.records ++ [⟨x, i, d⟩]
          pass := update w.pass x (some { p with todo := rest, retired := p.retired + 1 }) }) := by
  simp only [Retention.step] at h
  split at h
  · cases h
  · next p hp =>
    split at h
    · cases h
    · next i rest ht =>
      obtain ⟨hx, h⟩ := ite_none_right_eq_some.mp h
      unfold stepExpireGroup at h
      split at h
      · cases h
      · next g hg =>
        refine ⟨p, i, rest, g, hp, ht, hx, hg, ?_⟩
        -- a group that does not qualify is passed over
        split at h
        · cases h
          exact .inl rfl
        · next hq =>
          split_ifs at h
          cases h
          exact .inr ⟨Bool.not_eq_false _ ▸ hq, _, rfl⟩

/-- The pass that examines a group holds the lock. -/
theorem Inv.holder_of_todo (hi : Inv ttl w) (hp : w.pass x = some p) (ht : p.todo = i :: rest)
    (hx : w.clock.status x = .running) : p.locked = true ∧ w.holder = some x := by
  cases hl : p.locked with
  | false =>
    have := (hi.unlocked x p hp hl).1
    rw [ht] at this
    cases this
  | true => exact ⟨rfl, hi.locked x p hp hl hx⟩

theorem Inv.nextGroup (hi : Inv ttl w) (hp : w.pass x = some p) (ht : p.todo = i :: rest)
    (hx : w.clock.status x = .running) (k : ℕ) :
    Inv ttl { w with
      pass := update w.pass x (some { p with todo := rest, retired := k }) } := by
  obtain ⟨hl, hh⟩ := hi.holder_of_todo hp ht hx
  have hnd := hi.nodup x p hp
  rw [ht] at hnd
  refine hi.setPass hp hl hh (.inr hh) (nodup_cons.mp hnd).2 ?_ (.inl rfl)
  intro j hj
  have hjt : j ∈ p.todo := by
    rw [ht]
    exact mem_cons_of_mem _ hj
  have hlt := hi.listed x p hp j hjt
  exact ⟨w.groups[j], getElem?_eq_getElem hlt, hi.todo x p hp j hjt _ (getElem?_eq_getElem hlt)⟩

theorem Inv.expireGroup (hi : Inv ttl w) (hp : w.pass x = some p) (ht : p.todo = i :: rest)
    (hx : w.clock.status x = .running) (hg : w.groups[i]? = some g)
    (hq : w.qualifies ttl zoned p i g = true) (d : ℕ) :
    Inv ttl { w with
      groups := w.retireGroup x i
      records := w.records ++ [⟨x, i, d⟩]
      pass := update w.pass x (some { p with todo := rest, retired := p.retired + 1 }) } := by
  obtain ⟨hl, hh⟩ := hi.holder_of_todo hp ht hx
  have hnd := hi.nodup x p hp
  rw [ht] at hnd
  have hret := (hi.nextGroup hp ht hx (p.retired + 1)).retire (x := x) (i := i) hh (by
    intro q hq'
    dsimp only at hq'
    rw [update_self, Option.some.injEq] at hq'
    subst hq'
    refine ⟨hl, (nodup_cons.mp hnd).1, fun g' hg' n r hr hlive => ?_⟩
    rw [show w.groups[i]? = some g' from hg', Option.some.injEq] at hg
    subst hg
    exact expired_of_qualifies (w := w) hq hr hlive)
  refine ⟨hret.wf, hret.used, hret.retirer, hret.unlocked, hret.locked, hret.nodup, hret.todo,
    hret.listed, fun r hr => ?_, hret.dropped⟩
  rcases mem_append.mp hr with hr | hr
  · exact hret.recordPass r hr
  · rw [mem_singleton.mp hr]
    dsimp only
    rw [update_self]
    nofun

/-- A group that is still there is removed, recorded and counted. -/
theorem Recorded.expireGroup (hr : Recorded w) (hi : Inv ttl w) (hp : w.pass x = some p)
    (ht : p.todo = i :: rest) (hx : w.clock.status x = .running) (hg : w.groups[i]? = some g)
    (hthere : ∀ y ∈ g.retirer, w.clock.status y ≠ .committed) (d : ℕ) :
    Recorded { w with
      groups := w.retireGroup x i
      records := w.records ++ [⟨x, i, d⟩]
      pass := update w.pass x (some { p with todo := rest, retired := p.retired + 1 }) } := by
  obtain ⟨_, hh⟩ := hi.holder_of_todo hp ht hx
  obtain ⟨hown, hins⟩ := hi.todo x p hp i (by rw [ht]; exact mem_cons_self) g hg
  have hnab : w.clock.status x ≠ .aborted := by
    rw [hx]
    nofun
  have hset : w.retireGroup x i = w.groups.set i { g with retirer := some x } := by
    unfold World.retireGroup
    rw [hg]
    refine if_pos ?_
    rw [World.groupVisible, Bool.and_eq_true]
    refine ⟨decide_eq_true ((Clock.sees_latest hi.wf).mpr hins), ?_⟩
    cases hret : g.retirer with
    | none => rfl
    | some y => exact decide_eq_true fun hsee => hthere y hret hsee.1
  refine ⟨fun y q hq hy j => ?_, fun y q hq hy => ?_⟩
  · rcases update_eq_some hq with ⟨rfl, rfl⟩ | ⟨hyx, hq⟩
    · have hold := hr.recorded y p hp hnab
      rw [show (∃ r ∈ w.records ++ [(⟨y, i, d⟩ : RetiredGroup)], r.xid = y ∧ r.group = j) ↔
        (∃ r ∈ w.records, r.xid = y ∧ r.group = j) ∨ i = j by simp [or_and_right, exists_or],
        hold j, hset]
      constructor
      · rintro (⟨g', hg', hret⟩ | rfl)
        · by_cases hij : i = j
          · exact ⟨_, (getElem?_set_eq_some hg).mpr (.inl ⟨hij, rfl⟩), rfl⟩
          · exact ⟨g', (getElem?_set_eq_some hg).mpr (.inr ⟨hij, hg'⟩), hret⟩
        · exact ⟨_, (getElem?_set_eq_some hg).mpr (.inl ⟨rfl, rfl⟩), rfl⟩
      · rintro ⟨g', hg', hret⟩
        rcases (getElem?_set_eq_some hg).mp hg' with ⟨hij, _⟩ | ⟨_, hg'⟩
        · exact .inr hij
        · exact .inl ⟨g', hg', hret⟩
    · rw [← (hr.retire_other hi hh hq hy hyx).1 j]
      simp [Ne.symm hyx]
  · rcases update_eq_some hq with ⟨rfl, rfl⟩ | ⟨hyx, hq⟩
    · rw [World.removedBy, hset, countP_set_of_pos hg (decide_eq_false hown) (decide_eq_true rfl)]
      exact congrArg (· + 1) (hr.counted y p hp hnab)
    · exact (hr.retire_other hi hh hq hy hyx).2

end ExpireGroup

/-! ## Runs -/

theorem Inv.step {a : Action α} (hi : Inv ttl w) (h : step ttl zoned w a = some w') :
    Inv ttl w' := by
  cases a with
  | begin =>
    cases h
    exact hi.tick .begin fun x hx => .inr (.inr hx)
  | commit x =>
    obtain ⟨⟨hx, _⟩, h⟩ := ite_none_right_eq_some.mp h
    cases h
    exact hi.finish hx (.inl rfl)
  | abort x =>
    obtain ⟨hx, h⟩ := ite_none_right_eq_some.mp h
    cases h
    exact hi.finish hx (.inr rfl)
  | takeSnapshot =>
    cases h
    exact hi.tick .takeSnapshot fun x hx => .inr (.inr hx)
  | dropSnapshot i =>
    cases h
    exact hi.tick (.dropSnapshot i) fun x hx => .inr (.inr hx)
  | flushRowGroup x first rows =>
    obtain ⟨_, h⟩ := ite_none_right_eq_some.mp h
    cases h
    exact hi.flushRowGroup rfl
  | flushDelete x rowNumber =>
    obtain ⟨_, h⟩ := ite_none_right_eq_some.mp h
    cases h
    exact hi.flushDelete _
  | maintLock x =>
    obtain ⟨⟨_, _, hh⟩, h⟩ := ite_none_right_eq_some.mp h
    cases h
    exact hi.tick .refl fun y hy => absurd (hy.symm.trans hh) nofun
  | maintRetire x i =>
    obtain ⟨⟨hh, hp⟩, h⟩ := ite_none_right_eq_some.mp h
    cases h
    refine hi.retire hh fun p hp' => ?_
    rw [hp'] at hp
    cases hp
  | expireCall x =>
    obtain ⟨⟨hx, _, hg, _⟩, h⟩ := ite_none_right_eq_some.mp h
    cases h
    exact hi.expireCall hx hg
  | expireLock x cutoff skip =>
    simp only [Retention.step] at h
    split at h
    · cases h
    · next p hp =>
      obtain ⟨⟨_, hl, hh⟩, h⟩ := ite_none_right_eq_some.mp h
      cases h
      -- an expire that waits has retired nothing
      have hnone := (hi.unlocked x p hp hl).2
      refine hi.setPass hp rfl rfl (.inl hh) ?_ ?_ (.inr hnone)
      · dsimp only
        split
        · exact nodup_nil
        · exact nodup_rowGroupList
      · intro i hit
        split at hit
        · cases hit
        · obtain ⟨g, hg, hvis⟩ := mem_rowGroupList hit
          rw [World.groupVisible, Bool.and_eq_true, decide_eq_true_eq] at hvis
          exact ⟨g, hg, hnone g (mem_of_getElem? hg), hvis.1.1⟩
  | expireGroup x =>
    obtain ⟨p, i, rest, g, hp, ht, hx, hg, rfl | ⟨hq, d, rfl⟩⟩ := step_expireGroup h
    · exact hi.nextGroup hp ht hx p.retired
    · exact hi.expireGroup hp ht hx hg hq d

def Action.examines : Action α → Option ℕ
  | .expireGroup x => some x
  | _ => none

/-- What expire does not check: the group it is about to retire is still there. -/
def ok (ttl : α → Option ℤ) (zoned : ℕ → Bool) (w : World α) (a : Action α) : Prop :=
  ∀ x ∈ a.examines, ∀ p ∈ w.pass x, ∀ i ∈ p.todo.head?, ∀ g ∈ w.groups[i]?,
    w.qualifies ttl zoned p i g = true → ∀ y ∈ g.retirer, w.clock.status y ≠ .committed

instance (w : World α) (a : Action α) : Decidable (ok ttl zoned w a) :=
  inferInstanceAs (Decidable (∀ x ∈ _, ∀ p ∈ _, ∀ i ∈ _, ∀ g ∈ _, _ → ∀ y ∈ _, _))

theorem Recorded.step {a : Action α} (hr : Recorded w) (hi : Inv ttl w)
    (hok : ok ttl zoned w a) (h : step ttl zoned w a = some w') : Recorded w' := by
  cases a with
  | begin =>
    cases h
    exact hr.tick hi.wf .begin
  | commit x =>
    obtain ⟨⟨hx, _⟩, h⟩ := ite_none_right_eq_some.mp h
    cases h
    exact hr.finish hi.wf hx (.inl rfl)
  | abort x =>
    obtain ⟨hx, h⟩ := ite_none_right_eq_some.mp h
    cases h
    exact hr.finish hi.wf hx (.inr rfl)
  | takeSnapshot =>
    cases h
    exact hr.tick hi.wf .takeSnapshot
  | dropSnapshot i =>
    cases h
    exact hr.tick hi.wf (.dropSnapshot i)
  | flushRowGroup x first rows =>
    obtain ⟨_, h⟩ := ite_none_right_eq_some.mp h
    cases h
    exact hr.flushRowGroup rfl
  | flushDelete x rowNumber =>
    obtain ⟨_, h⟩ := ite_none_right_eq_some.mp h
    cases h
    exact hr.flushDelete _
  | maintLock x =>
    obtain ⟨_, h⟩ := ite_none_right_eq_some.mp h
    cases h
    exact hr.tick hi.wf .refl
  | maintRetire x i =>
    obtain ⟨⟨hh, hp⟩, h⟩ := ite_none_right_eq_some.mp h
    cases h
    -- a rewrite is no expire: what it retires belongs to no pass
    have hother : ∀ y q, w.pass y = some q → y ≠ x := by
      rintro y q hq rfl
      rw [hq] at hp
      cases hp
    exact ⟨fun y q hq hy => (hr.retire_other hi hh hq hy (hother y q hq)).1,
      fun y q hq hy => (hr.retire_other hi hh hq hy (hother y q hq)).2⟩
  | expireCall x =>
    obtain ⟨⟨_, hp, hg, _⟩, h⟩ := ite_none_right_eq_some.mp h
    cases h
    exact hr.expireCall hi (isNone_iff_eq_none.mp hp) hg
  | expireLock x cutoff skip =>
    simp only [Retention.step] at h
    split at h
    · cases h
    · next p hp =>
      obtain ⟨_, h⟩ := ite_none_right_eq_some.mp h
      cases h
      exact hr.setPass hp rfl
  | expireGroup x =>
    obtain ⟨p, i, rest, g, hp, ht, hx, hg, rfl | ⟨hq, d, rfl⟩⟩ := step_expireGroup h
    · exact hr.setPass hp rfl
    · -- by `ok` the group is still there
      refine hr.expireGroup hi hp ht hx hg ?_ d
      exact hok x rfl p hp i (by rw [ht]; rfl) g hg hq

/-- In a run in which every group that an expire retires is still there, each expire drops
only rows past its cutoff, and records and counts exactly the groups it removes. -/
theorem exact_run (ttl : α → Option ℤ) (zoned : ℕ → Bool) (acts : List (Action α)) (w : World α)
    (hok : Run.AllSteps (step ttl zoned) (ok ttl zoned) World.init acts)
    (h : Run.run (step ttl zoned) World.init acts = some w) : Exact ttl w := by
  have hboth : Inv ttl w ∧ Recorded w :=
    Run.run_invariant_of (P := fun w => Inv ttl w ∧ Recorded w)
      (fun _ _ _ hs ho hstep => ⟨hs.1.step hstep, hs.2.step hs.1 ho hstep⟩)
      ⟨Inv.init, Recorded.init⟩ hok h
  exact ⟨hboth.1.dropped, hboth.2.recorded, hboth.2.counted⟩

/-- Two groups, one with a null that has been deleted; the expire drops that one. -/
def quietExpire : List (Action (Option ℤ)) :=
  [.begin, .flushRowGroup 0 1 [some 5, none], .flushRowGroup 0 3 [some 20], .commit 0,
    .begin, .flushDelete 1 2, .commit 1,
    .begin, .expireCall 2, .expireLock 2 10 false, .expireGroup 2, .expireGroup 2, .commit 2]

theorem exact_run_quietExpire :
    ∃ w, Run.run (step id fun _ => true) World.init quietExpire = some w ∧
      w.records = [⟨2, 0, 1⟩] ∧ Exact id w := by
  have hrun : (Run.run (step id fun _ => true) World.init quietExpire).map
      (fun w => w.records) = some [⟨2, 0, 1⟩] := by
    decide +kernel
  obtain ⟨w, hw, hrec⟩ := map_eq_some_iff.mp hrun
  exact ⟨w, hw, hrec, exact_run id (fun _ => true) quietExpire w (by decide +kernel) hw⟩

/-- While the expire waits for the lock, a rewrite moves the rows of group 0 to group 1. -/
def lateExpire : List (Action (Option ℤ)) :=
  [.begin, .flushRowGroup 0 1 [some 5, some 6], .commit 0,
    .begin, .maintLock 1, .begin, .expireCall 2,
    .flushRowGroup 1 3 [some 5, some 6], .maintRetire 1 0, .commit 1,
    .expireLock 2 10 false, .expireGroup 2, .commit 2]

/-- It then records and counts group 0, which it has not removed. -/
theorem recorded_not_removed :
    ¬ ∀ acts w, Run.run (step (id : Option ℤ → Option ℤ) fun _ => true) World.init acts = some w →
      Exact id w := by
  intro hall
  have hrun : (Run.run (step (id : Option ℤ → Option ℤ) fun _ => true) World.init lateExpire).map
      (fun w => ((w.pass 2).map (·.retired), w.clock.status 2, w.removedBy 2)) =
        some (some 1, .committed, 0) := by
    decide +kernel
  obtain ⟨w, hw, htuple⟩ := map_eq_some_iff.mp hrun
  simp only [Prod.mk.injEq] at htuple
  obtain ⟨hpass, hst, hrem⟩ := htuple
  obtain ⟨p, hp, hret⟩ := map_eq_some_iff.mp hpass
  have hcount := (hall lateExpire w hw).counted 2 p hp (by rw [hst]; nofun)
  rw [hret, hrem] at hcount
  cases hcount

end PgColumnar.Retention
