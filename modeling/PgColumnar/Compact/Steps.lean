import PgColumnar.Compact.Invariant

/-!
# Flushes and passes keep the invariant
-/

namespace PgColumnar.Compact

open Bytes Mvcc PgColumnar.Delete.Serialize List Option Function Catalog Compact.Group

variable {c c' : Clock} {s s' : State} {g g' : Group} {v w : Version} {fs : List (List ℕ)}
  {vis vis' : ℕ → Bool} {t i x y : ℕ} {rows : List ℕ} {found : Option ℕ}

/-! ### The flush -/

@[simp] theorem upsert_rowCount : (g.upsert x rows found).rowCount = g.rowCount := by
  cases found <;> rfl

@[simp] theorem upsert_retirer : (g.upsert x rows found).retirer = g.retirer := by
  cases found <;> rfl

@[simp] theorem upsert_inserter : (g.upsert x rows found).inserter = g.inserter := by
  cases found <;> rfl

theorem getElem?_upsert {k : ℕ} : (g.upsert x rows found).versions[k]? = some w ↔
    (∃ v, g.versions[k]? = some v ∧ w = if found = some k then { v with xmax := some x } else v) ∨
      k = g.versions.length ∧ w = g.merged x rows found := by
  cases found with
  | none =>
    show (g.versions ++ [g.merged x rows none])[k]? = some w ↔ _
    rw [getElem?_concat_eq_some]
    simp
  | some j =>
    show ((g.versions.modify j fun v => { v with xmax := some x }) ++
      [g.merged x rows (some j)])[k]? = some w ↔ _
    rw [getElem?_concat_eq_some, getElem?_modify_eq_some, length_modify]
    simp only [Option.some.injEq]

theorem bitAt_maskOf {n : ℕ} (hrows : ∀ k ∈ rows, k < n) (k : ℕ) :
    bitAt (maskOf n rows) k = decide (k ∈ rows) := by
  rw [maskOf, bitAt_foldl_setBit]
  · rw [bitAt_zeros, Bool.false_or]
  · intro r hr
    have := hrows r hr
    rw [length_zeros]
    omega

theorem length_mergeVector (o : Option StoredVector) (mask : List Byte) :
    (mergeVector o mask).bitmap.length = mask.length := by
  cases o with
  | none => rfl
  | some v => exact length_orBytes _ _

/-- The version written deletes its rows and those of the version it replaces. -/
theorem GroupOk.bit_merged (h : GroupOk c g) (hrows : ∀ k ∈ rows, k < g.rowCount) {k : ℕ} :
    bitAt (g.merged x rows found).vector.bitmap k = true ↔
      k ∈ rows ∨ ∃ j v, found = some j ∧ g.versions[j]? = some v ∧
        bitAt v.vector.bitmap k = true := by
  have hlt : ∀ (j : ℕ) (v : Version), g.versions[j]? = some v →
      bitAt v.vector.bitmap k = true → k < g.rowCount :=
    fun j v hv => (h.version v (mem_of_getElem? hv)).bits k
  have hbit : bit ((found.bind fun j => g.versions[j]?).map (·.vector)) k = true ↔
      ∃ j v, found = some j ∧ g.versions[j]? = some v ∧ bitAt v.vector.bitmap k = true := by
    cases found with
    | none => simp [bit]
    | some j =>
      cases hv : g.versions[j]? with
      | none | some v => simp [bit, hv]
  unfold Group.merged
  by_cases hk : k < g.rowCount
  · rw [bit_mergeVector (by rw [maskOf, length_foldl_setBit, length_zeros]; omega),
      bitAt_maskOf hrows, hbit, decide_eq_true_eq,
      or_comm]
  · constructor
    · intro hset
      have hlen := lt_of_bitAt hset
      rw [length_mergeVector] at hlen
      rw [bit_mergeVector hlen, bitAt_maskOf hrows, hbit, decide_eq_true_eq, or_comm] at hset
      exact hset
    · rintro (hmem | ⟨j, v, _, hv, hset⟩)
      · exact absurd (hrows k hmem) hk
      · exact absurd (hlt j v hv hset) hk

/-- A version after the flush: an old one, perhaps replaced by `x`, or the one written. -/
theorem mem_upsert (hw : w ∈ (g.upsert x rows found).versions) :
    (∃ v ∈ g.versions, w.vector = v.vector ∧ w.xmin = v.xmin ∧ w.dropped = v.dropped ∧
      (w.xmax = v.xmax ∨ w.xmax = some x)) ∨ w = g.merged x rows found := by
  obtain ⟨k, hk⟩ := mem_iff_getElem?.mp hw
  rcases getElem?_upsert.mp hk with ⟨v, hv, rfl⟩ | ⟨_, hw⟩
  · refine .inl ⟨v, mem_of_getElem? hv, ?_⟩
    split
    · exact ⟨rfl, rfl, rfl, .inr rfl⟩
    · exact ⟨rfl, rfl, rfl, .inl rfl⟩
  · exact .inr hw

theorem writes_upsert (hy : (g.upsert x rows found).Writes y) : g.Writes y ∨ y = x := by
  obtain ⟨w, hw, hy⟩ := hy
  rcases mem_upsert hw with ⟨v, hv, _, hmin, _, hmax⟩ | rfl
  · rcases hy with hy | hy
    · exact .inl ⟨v, hv, .inl (hmin.symm.trans hy)⟩
    · rcases hmax with hmax | hmax
      · exact .inl ⟨v, hv, .inr (hmax.symm.trans hy)⟩
      · rw [hmax] at hy
        exact .inr (Option.some.inj hy).symm
  · rcases hy with hy | hy
    · exact .inr hy.symm
    · cases hy

theorem Group.Dead.upsert (h : g.Dead c) : (g.upsert x rows found).Dead c := by
  obtain ⟨v, hv, hset, hfull⟩ := h
  obtain ⟨k, hk⟩ := mem_iff_getElem?.mp hv
  have hnew : (g.upsert x rows found).versions[k]? = some _ :=
    getElem?_upsert.mpr (.inl ⟨v, hk, rfl⟩)
  refine ⟨_, mem_of_getElem? hnew, ?_, ?_⟩
  · split <;> exact hset
  · rw [upsert_rowCount]
    split <;> exact hfull

theorem GroupOk.upsert (h : GroupOk c g) (hx : c.status x ≠ .unused)
    (hrows : ∀ k ∈ rows, k < g.rowCount) : GroupOk c (g.upsert x rows found) where
  version := by
    intro w hw
    rw [upsert_rowCount]
    rcases mem_upsert hw with ⟨v, hv, hvec, hmin, hdrop, hmax⟩ | rfl
    · obtain ⟨h1, h2, h3, h4, h5⟩ := h.version v hv
      refine ⟨?_, ?_, ?_, ?_, ?_⟩
      · rw [hmin]
        exact h1
      · intro y hy
        rcases hmax with hmax | hmax
        · rw [hmax] at hy
          exact h2 y hy
        · rw [hmax] at hy
          rw [← Option.some.inj hy]
          exact hx
      · rw [hdrop]
        exact h3
      · rw [hvec]
        exact h4
      · rw [hvec]
        exact h5
    · refine ⟨hx, nofun, nofun, ?_, counted_mergeVector _ _⟩
      intro k hk
      rcases (h.bit_merged hrows).mp hk with hk | ⟨j, v, _, hv, hk⟩
      · exact hrows k hk
      · exact (h.version v (mem_of_getElem? hv)).bits k hk
  chain := by
    intro k w hw y hy
    rcases getElem?_upsert.mp hw with ⟨v, hv, rfl⟩ | ⟨_, rfl⟩
    · by_cases hk : found = some k
      · -- the version replaced is covered by the one written
        rw [if_pos hk] at hy ⊢
        refine ⟨g.versions.length, g.merged x rows found, getElem?_upsert.mpr (.inr ⟨rfl, rfl⟩),
          (List.getElem?_eq_some_iff.mp hv).1, Option.some.inj hy, ?_⟩
        intro b hb
        exact (h.bit_merged hrows).mpr (.inr ⟨k, v, hk, hv, hb⟩)
      · rw [if_neg hk] at hy ⊢
        obtain ⟨m, u, hu, hlt, hmin, hcov⟩ := h.chain k v hv y hy
        refine ⟨m, _, getElem?_upsert.mpr (.inl ⟨u, hu, rfl⟩), hlt, ?_, ?_⟩
        · split <;> exact hmin
        · split <;> exact hcov
    · cases hy
  retirer := by
    intro y hy
    rw [upsert_retirer] at hy
    obtain ⟨hused, hy⟩ := h.retirer y hy
    exact ⟨hused, hy.imp_right Group.Dead.upsert⟩
  dropped := by
    intro w hw y hy
    rw [upsert_retirer]
    rcases mem_upsert hw with ⟨v, hv, _, _, hdrop, _⟩ | rfl
    · rw [hdrop] at hy
      exact h.dropped v hv y hy
    · cases hy

theorem upsert_versions {j : ℕ} (hv : g.versions[j]? = some v) :
    (g.upsert x rows (some j)).versions =
      g.versions.set j { v with xmax := some x } ++ [g.merged x rows (some j)] := by
  show (g.versions.modify j fun v => { v with xmax := some x }) ++ _ = _
  rw [modify_eq_set_getElem?, hv]
  rfl

/-- The version written is the only current one for whoever sees `x`. -/
theorem Group.OneLive.upsert_self (h : g.OneLive vis)
    (hx : ∀ v ∈ g.versions, found = none → v.live vis = false)
    (hfound : ∀ j, found = some j → ∃ v, g.versions[j]? = some v ∧ v.live vis = true)
    (hvis : vis x = true) : (g.upsert x rows found).OneLive vis := by
  unfold Group.OneLive at h ⊢
  cases found with
  | none =>
    show (g.versions ++ [g.merged x rows none]).countP _ ≤ 1
    rw [countP_append, countP_eq_zero.mpr, Nat.zero_add]
    · exact countP_le_length
    · intro v hv
      rw [hx v hv rfl]
      simp
  | some j =>
    obtain ⟨v, hv, hlive⟩ := hfound j rfl
    have hreplaced : Version.live vis { v with xmax := some x } = false := by
      rw [← Bool.not_eq_true, Version.live_eq_true]
      intro hnew
      have : vis x = false := hnew.2.1
      rw [hvis] at this
      cases this
    obtain ⟨hj, rfl⟩ := List.getElem?_eq_some_iff.mp hv
    rw [upsert_versions hv, countP_append, countP_set hj, if_pos hlive,
      if_neg (by rw [hreplaced]; simp)]
    have hnew : [g.merged x rows (some j)].countP (Version.live vis) ≤ 1 := countP_le_length
    omega

/-- Whoever does not see `x` finds the current version it found before. -/
theorem Group.OneLive.upsert_other (h : g.OneLive vis)
    (hfound : ∀ j v, found = some j → g.versions[j]? = some v → v.xmax.any vis = false)
    (hvis : vis x = false) : (g.upsert x rows found).OneLive vis := by
  have hmerged : [g.merged x rows found].countP (Version.live vis) = 0 := by
    rw [countP_eq_zero]
    intro w hw hlive
    rw [mem_singleton.mp hw, Version.live_eq_true] at hlive
    have : vis x = true := hlive.1
    rw [hvis] at this
    cases this
  unfold Group.OneLive at h ⊢
  cases found with
  | none =>
    show (g.versions ++ [g.merged x rows none]).countP _ ≤ 1
    rw [countP_append, hmerged]
    exact h
  | some j =>
    cases hv : g.versions[j]? with
    | none =>
      show ((g.versions.modify j fun v => { v with xmax := some x }) ++ _).countP _ ≤ 1
      rw [modify_eq_set_getElem?, hv, countP_append, hmerged]
      exact h
    | some v =>
      -- the version that `x` replaces was current for the same reason as before
      have hsame : Version.live vis { v with xmax := some x } = v.live vis := by
        simp only [Version.live, hfound j v rfl hv, any_some, hvis]
      obtain ⟨hj, rfl⟩ := List.getElem?_eq_some_iff.mp hv
      rw [upsert_versions hv, countP_append, hmerged, countP_set hj, hsame]
      have hpos : (if g.versions[j].live vis = true then 1 else 0) ≤
          g.versions.countP (Version.live vis) := by
        split
        · next hlive => exact countP_pos_iff.mpr ⟨_, getElem_mem hj, hlive⟩
        · exact Nat.zero_le _
      omega

/-- The frames that hold the current subtransaction are all of them. -/
theorem Inv.eq_frames_of_current (h : Inv s) (hcur : s.current t = some x) {u : ℕ}
    (hfs : fs <:+ s.frames u) (hx : x ∈ fs.flatten) : u = t ∧ fs = s.frames u := by
  have hxt := State.current_mem hcur
  have hut := h.frames.disjoint u t x (mem_flatten_of_suffix hfs hx) hxt
  subst hut
  refine ⟨rfl, ?_⟩
  unfold State.current at hcur
  have hnodup := h.frames.nodup u
  cases hf : s.frames u with
  | nil =>
    rw [hf, suffix_nil] at hfs
    exact hfs
  | cons f rest =>
    rw [hf] at hcur hfs hnodup
    rcases suffix_cons_iff.mp hfs with heq | hrest
    · exact heq
    · rw [flatten_cons, nodup_append] at hnodup
      exact absurd rfl (hnodup.2.2 x (mem_of_mem_head? hcur) x (mem_flatten_of_suffix hrest hx))

/-- Who writes is the current subtransaction, and not a lazy vacuum. -/
theorem State.writer_eq_some {s : State} :
    s.writer t = some x ↔ s.current t = some x ∧ s.lazy x = false := by
  simp [State.writer, Option.filter_eq_some_iff]

theorem Inv.upsert (h : Inv s) (hw : s.writer t = some x)
    (hf : s.flushing t = some ⟨i, rows, some found⟩) (hg : s.groups[i]? = some g)
    (hrep : ∀ j ∈ found, ∀ v ∈ g.versions[j]?, s.replaceable t v = true) :
    Inv { s with
      groups := s.groups.set i (g.upsert x rows found)
      flushing := update s.flushing t none } := by
  obtain ⟨hcur, hlazy⟩ := State.writer_eq_some.mp hw
  obtain ⟨a, hok⟩ := h.flush t _ hf
  have heq : a = g := Option.some.inj (hok.group.symm.trans hg)
  subst heq
  have hgok := h.groups a (mem_of_getElem? hg)
  have hrun := h.frames.running t x (State.current_mem hcur)
  have hlock : (i, x) ∈ s.locks := by
    obtain ⟨y, hcury, hlock⟩ := hok.lock
    rw [hcur] at hcury
    cases hcury
    exact hlock
  have hlive : ∀ j v, found = some j → a.versions[j]? = some v → v.live (s.self t) = true := by
    intro j v hj hv
    have := hrep j hj v hv
    simp only [State.replaceable, Bool.and_eq_true] at this
    exact this.1.1
  have h1 := h.setFlushing (t := t) (o := none) nofun
  refine h1.setGroup (a.upsert x rows found) hg
    (hgok.upsert (by rw [hrun]; simp) hok.rows) ?_ ?_ ?_ ?_
  · refine ⟨Group.Dead.upsert, upsert_rowCount, fun u f hfu hfi hfok => ?_⟩
    -- another flush of the group would hold its lock as well
    exfalso
    have hfu' : f ∈ update s.flushing t none u := hfu
    obtain ⟨y, hcury, hlocky⟩ := hfok.lock
    rw [hfi] at hlocky
    have hyu := State.current_mem (s := s) hcury
    have hry := h.frames.running u y hyu
    obtain ⟨o, hxo, hyo⟩ := h.locks.exclusive i x y hlock hlocky hrun hry
    have hut : u = t := (h.frames.disjoint u o y hyu hyo).trans
      (h.frames.disjoint o t x hxo (State.current_mem hcur))
    rw [hut, update_self] at hfu'
    cases hfu'
  · intro y hy hry
    rcases writes_upsert hy with hy | rfl
    · exact h.locks.held i a hg y hy hry
    · exact hlock
  · intro w hw
    rcases mem_upsert hw with ⟨v, hv, _, hmin, _⟩ | rfl
    · rw [hmin]
      exact h.plain a (mem_of_getElem? hg) v hv
    · exact hlazy
  · intro u fs hfs
    have hold := h.oneLive i a hg u fs hfs
    by_cases hx : x ∈ fs.flatten
    · obtain ⟨rfl, rfl⟩ := h.eq_frames_of_current hcur hfs hx
      refine hold.upsert_self (fun v hv hnone => ?_) (fun j hj => ?_) (view_eq_true.mpr (.inr hx))
      · exact hok.none_live (by rw [hnone]) v hv
      · obtain ⟨v, hv, _⟩ := hok.found j (by rw [hj])
        exact ⟨v, hv, hlive j v hj hv⟩
    · refine hold.upsert_other (fun j v hj hv => ?_) (view_eq_false.mpr ⟨by rw [hrun]; simp, hx⟩)
      rw [any_eq_false]
      intro y hy
      have hself := (Version.live_eq_true.mp (hlive j v hj hv)).2.1
      rw [any_eq_false] at hself
      have hnot := view_eq_false.mp (hself y hy)
      refine view_eq_false.mpr ⟨hnot.1, fun hmem => hnot.2 ?_⟩
      exact hok.owns h ⟨v, mem_of_getElem? hv, .inr hy⟩
        (h.frames.running u y (mem_flatten_of_suffix hfs hmem))

/-! ### The pass -/

/-- A current version older than the horizon that counts as many deletions as there are
rows: as it is the only one, the sum is its count. -/
theorem exists_of_deletedSeen {h : ℕ} (hone : g.OneLive vis) (hpos : g.rowCount ≠ 0)
    (hsum : g.rowCount ≤ g.deletedSeen vis h) :
    ∃ v ∈ g.versions, v.live vis = true ∧ v.xmin < h ∧ g.rowCount ≤ v.vector.deletedCount := by
  unfold Group.deletedSeen at hsum
  have hmem : ∀ v ∈ g.versions.filter (fun v => v.live vis && decide (v.xmin < h)),
      v ∈ g.versions ∧ v.live vis = true ∧ v.xmin < h := by
    intro v hv
    simpa [Bool.and_eq_true] using mem_filter.mp hv
  have hlen : (g.versions.filter fun v => v.live vis && decide (v.xmin < h)).length ≤ 1 := by
    rw [← countP_eq_length_filter]
    refine Nat.le_trans (countP_mono_left fun v _ hv => ?_) hone
    exact (Bool.and_eq_true_iff.mp hv).1
  match hl : g.versions.filter fun v => v.live vis && decide (v.xmin < h) with
  | [] =>
    rw [hl] at hsum
    exact absurd (Nat.le_zero.mp hsum) hpos
  | [v] =>
    rw [hl] at hsum hmem
    obtain ⟨hv, hlive, hlt⟩ := hmem v mem_cons_self
    exact ⟨v, hv, hlive, hlt, by simpa using hsum⟩
  | _ :: _ :: _ =>
    rw [hl] at hlen
    simp at hlen

theorem before_of_isHorizon (h : Inv s) {oldestXmin : ℕ} (hh : s.isHorizon oldestXmin = true) :
    Before s.lazy s.clock oldestXmin := by
  simp only [State.isHorizon, Bool.and_eq_true, decide_eq_true_eq, List.all_eq_true,
    Bool.or_eq_true] at hh
  obtain ⟨⟨hnext, hrun⟩, hsnap⟩ := hh
  -- what is listed, as running or by a snapshot, is a lazy vacuum or not below the horizon
  have hnot : ∀ y < oldestXmin, s.lazy y = false → ¬ (s.lazy y = true ∨ oldestXmin ≤ y) := by
    rintro y hy hl (hl' | hle)
    · rw [hl] at hl'
      cases hl'
    · omega
  refine ⟨hnext, fun y hy hl => ⟨fun hr => ?_, fun hcom => ⟨hcom, fun snap hs => ?_⟩⟩⟩
  · exact hnot y hy hl (hrun y ((Clock.mem_running h.clock).mpr hr))
  · exact ⟨hcom, Nat.lt_of_lt_of_le hy (hsnap snap hs).1,
      fun hmem => hnot y hy hl ((hsnap snap hs).2 y hmem)⟩

/-- A group that the pass lists is dead. -/
theorem dead_of_listed (h : Inv s) {oldestXmin : ℕ} (hh : Before s.lazy s.clock oldestXmin)
    (hi : i ∈ s.computeFullyDeletedGroups t oldestXmin) :
    ∃ g, s.groups[i]? = some g ∧ g.Dead s.clock := by
  unfold State.computeFullyDeletedGroups at hi
  obtain ⟨⟨g, j⟩, hmem, rfl⟩ := mem_map.mp hi
  obtain ⟨hzip, hcond⟩ := mem_filter.mp hmem
  have hg : s.groups[j]? = some g := mem_zipIdx_iff_getElem?.mp hzip
  simp only [Bool.and_eq_true, decide_eq_true_eq] at hcond
  obtain ⟨⟨⟨_, _⟩, hpos⟩, hsum⟩ := hcond
  obtain ⟨v, hv, hlive, hlt, hcount⟩ := exists_of_deletedSeen
    (h.oneLive j g hg t (s.frames t) (suffix_refl _)) hpos hsum
  have hok := (h.groups g (mem_of_getElem? hg)).version v hv
  refine ⟨g, hg, v, hv, ?_, ?_⟩
  · -- an id below the horizon is not one of a running transaction
    obtain ⟨hrun, hset⟩ := hh.2 _ hlt (h.plain g (mem_of_getElem? hg) v hv)
    rcases view_eq_true.mp (Version.live_eq_true.mp hlive).1 with hcom | hown
    · exact hset hcom
    · exact absurd (h.frames.running t _ hown) hrun
  · rw [hok.counted] at hcount
    exact bitAt_of_le_popcount hok.bits hcount

theorem getElem?_retire {k : ℕ} : (g.retire vis x).versions[k]? = some w ↔
    ∃ v, g.versions[k]? = some v ∧ w = if v.live vis then { v with dropped := some x } else v := by
  show (g.versions.map _)[k]? = some w ↔ _
  rw [getElem?_map, map_eq_some_iff]
  simp only [eq_comm]

theorem mem_retire (hw : w ∈ (g.retire vis x).versions) :
    ∃ v ∈ g.versions, w = if v.live vis then { v with dropped := some x } else v := by
  obtain ⟨v, hv, rfl⟩ := mem_map.mp hw
  exact ⟨v, hv, rfl⟩

theorem writes_retire (hy : (g.retire vis x).Writes y) : g.Writes y := by
  obtain ⟨w, hw, hy⟩ := hy
  obtain ⟨v, hv, rfl⟩ := mem_retire hw
  refine ⟨v, hv, ?_⟩
  split at hy <;> exact hy

theorem Group.Dead.retire (h : g.Dead c) : (g.retire vis x).Dead c := by
  obtain ⟨v, hv, hset, hfull⟩ := h
  obtain ⟨k, hk⟩ := mem_iff_getElem?.mp hv
  have hnew : (g.retire vis x).versions[k]? = some _ := getElem?_retire.mpr ⟨v, hk, rfl⟩
  refine ⟨_, mem_of_getElem? hnew, ?_, ?_⟩
  · split <;> exact hset
  · show ∀ k < g.rowCount, _
    split <;> exact hfull

/-- A deletion that the transaction neither sees nor waits for has aborted. -/
theorem aborted_of_not_self (hused : s.clock.status y ≠ .unused) (hself : s.self t y = false)
    (hpend : s.clock.status y ≠ .running) : s.clock.status y = .aborted := by
  have hnot := (view_eq_false.mp hself).1
  cases hst : s.clock.status y with
  | unused => exact absurd hst hused
  | running => exact absurd hst hpend
  | committed => exact absurd hst hnot
  | aborted => rfl

/-- The group is there and nobody else is deleting its rows. -/
structure Retirable (s : State) (t : ℕ) (g : Group) : Prop where
  visible : g.visible (s.self t) = true
  retirer : ∀ y ∈ g.retirer, s.clock.status y ≠ .running
  dropped : ∀ v ∈ g.versions, v.live (s.self t) = true → ∀ y ∈ v.dropped,
    s.clock.status y ≠ .running

theorem Retirable.retirer_aborted (h : Retirable s t g) (hok : GroupOk s.clock g)
    (hy : y ∈ g.retirer) : s.clock.status y = .aborted := by
  have hvis := h.visible
  unfold Group.visible at hvis
  rw [Bool.and_eq_true, Bool.not_eq_true', any_eq_false] at hvis
  exact aborted_of_not_self (hok.retirer y hy).1 (hvis.2 y hy) (h.retirer y hy)

theorem Retirable.dropped_aborted (h : Retirable s t g) (hok : GroupOk s.clock g)
    (hv : v ∈ g.versions) (hlive : v.live (s.self t) = true) (hy : y ∈ v.dropped) :
    s.clock.status y = .aborted :=
  aborted_of_not_self ((hok.version v hv).dropped y hy)
    (any_eq_false.mp (Version.live_eq_true.mp hlive).2.2 y hy) (h.dropped v hv hlive y hy)

theorem GroupOk.retire (h : GroupOk s.clock g) (hr : Retirable s t g)
    (hx : s.clock.status x ≠ .unused) (hdead : g.Dead s.clock) :
    GroupOk s.clock (g.retire (s.self t) x) where
  version := by
    intro w hw
    obtain ⟨v, hv, rfl⟩ := mem_retire hw
    obtain ⟨h1, h2, h3, h4, h5⟩ := h.version v hv
    split
    · refine ⟨h1, h2, ?_, h4, h5⟩
      intro y hy
      rw [← Option.some.inj hy]
      exact hx
    · exact ⟨h1, h2, h3, h4, h5⟩
  chain := by
    intro k w hw y hy
    obtain ⟨v, hv, rfl⟩ := getElem?_retire.mp hw
    have hy' : y ∈ v.xmax := by split at hy <;> exact hy
    obtain ⟨m, u, hu, hlt, hmin, hcov⟩ := h.chain k v hv y hy'
    refine ⟨m, _, getElem?_retire.mpr ⟨u, hu, rfl⟩, hlt, ?_, ?_⟩
    · split <;> exact hmin
    · unfold Version.Covers at hcov ⊢
      split <;> split <;> exact hcov
  retirer := by
    intro y hy
    have hxy : x = y := Option.some.inj hy
    subst hxy
    exact ⟨hx, .inr hdead.retire⟩
  dropped := by
    intro w hw y hy
    obtain ⟨v, hv, rfl⟩ := mem_retire hw
    split at hy
    · exact .inr hy
    · rcases h.dropped v hv y hy with hab | hret
      · exact .inl hab
      · exact .inl (hr.retirer_aborted h hret)

/-- Whoever finds a version after the deletion found it before. -/
theorem Retirable.live_of_retire (hr : Retirable s t g) (hok : GroupOk s.clock g) (h : Inv s)
    {u : ℕ} (hfs : fs <:+ s.frames u) (hv : v ∈ g.versions)
    (hlive : Version.live (view s.clock fs)
      (if v.live (s.self t) then { v with dropped := some x } else v) = true) :
    v.live (view s.clock fs) = true := by
  by_cases hself : v.live (s.self t) = true
  · rw [if_pos hself, Version.live_eq_true] at hlive
    refine Version.live_eq_true.mpr ⟨hlive.1, hlive.2.1, any_eq_false.mpr fun y hy => ?_⟩
    have hab := hr.dropped_aborted hok hv hself hy
    refine view_eq_false.mpr ⟨by rw [hab]; simp, fun hmem => ?_⟩
    have hrun := h.frames.running u y (mem_flatten_of_suffix hfs hmem)
    rw [hab] at hrun
    cases hrun
  · rw [if_neg hself] at hlive
    exact hlive

theorem Inv.retire (h : Inv s) (hcur : s.current t = some x) (hg : s.groups[i]? = some g)
    (hr : Retirable s t g) (hdead : g.Dead s.clock) :
    Inv { s with groups := s.groups.set i (g.retire (s.self t) x) } := by
  have hok := h.groups g (mem_of_getElem? hg)
  have hrun := h.frames.running t x (State.current_mem hcur)
  refine h.setGroup (g.retire (s.self t) x) hg (hok.retire hr (by rw [hrun]; simp) hdead) ?_
    (fun y hy => h.locks.held i g hg y (writes_retire hy)) ?_ ?_
  · refine ⟨Group.Dead.retire, rfl, fun u f _ _ hfok => ⟨?_, ?_⟩⟩
    · intro hnone w hw
      obtain ⟨v, hv, rfl⟩ := mem_retire hw
      rw [← Bool.not_eq_true]
      intro hlive
      have hold := hr.live_of_retire hok h (suffix_refl (s.frames u)) hv hlive
      rw [show view s.clock (s.frames u) = s.self u from rfl, hfok.none_live hnone v hv] at hold
      cases hold
    · intro j hj
      obtain ⟨v, hv, hmin, hmax⟩ := hfok.found j hj
      refine ⟨_, getElem?_retire.mpr ⟨v, hv, rfl⟩, ?_, ?_⟩
      · split <;> exact hmin
      · split <;> exact hmax
  · intro w hw
    obtain ⟨v, hv, rfl⟩ := mem_retire hw
    have := h.plain g (mem_of_getElem? hg) v hv
    split <;> exact this
  · intro u fs hfs
    unfold Group.OneLive
    show (g.versions.map _).countP _ ≤ 1
    rw [countP_map]
    refine Nat.le_trans (countP_mono_left fun v hv hlive => ?_) (h.oneLive i g hg u fs hfs)
    exact hr.live_of_retire hok h hfs hv hlive

/-! ### What each step does -/

theorem step_beginSub : step s (.beginSub t) = some s' ↔ s.frames t ≠ [] ∧
    (s.idle t = true ∧ s.lazy t = false) ∧
    s' = State.setFrames { s with clock := s.clock.begin } t ([s.clock.next] :: s.frames t) := by
  constructor
  · intro h
    simp only [step] at h
    split at h
    · cases h
    · next fs hne =>
      split_ifs at h with hidle
      exact ⟨hne, hidle, (Option.some.inj h).symm⟩
  · rintro ⟨hne, hidle, rfl⟩
    simp only [step]
    rw [if_pos hidle]

theorem step_commitSub : step s (.commitSub t) = some s' ↔ ∃ f f' fs, s.frames t = f :: f' :: fs ∧
    s.idle t = true ∧ s' = s.setFrames t ((f' ++ f) :: fs) := by
  constructor
  · intro h
    simp only [step] at h
    split at h
    · next f f' fs hf =>
      split_ifs at h with hidle
      exact ⟨f, f', fs, hf, hidle, (Option.some.inj h).symm⟩
    · cases h
  · rintro ⟨f, f', fs, hf, hidle, rfl⟩
    simp only [step, hf, hidle, if_true]

theorem step_abortSub : step s (.abortSub t) = some s' ↔ ∃ f f' fs, s.frames t = f :: f' :: fs ∧
    s' = ((s.finish f .aborted).setFrames t (f' :: fs)).reset t := by
  constructor
  · intro h
    simp only [step] at h
    split at h
    · next f f' fs hf => exact ⟨f, f', fs, hf, (Option.some.inj h).symm⟩
    · cases h
  · rintro ⟨f, f', fs, hf, rfl⟩
    simp only [step, hf]

theorem step_commit : step s (.commit t) = some s' ↔ ∃ f, s.frames t = [f] ∧ s.idle t = true ∧
    s' = (s.finish f .committed).setFrames t [] := by
  constructor
  · intro h
    simp only [step] at h
    split at h
    · next f hf =>
      split_ifs at h with hidle
      exact ⟨f, hf, hidle, (Option.some.inj h).symm⟩
    · cases h
  · rintro ⟨f, hf, hidle, rfl⟩
    simp only [step, hf, hidle, if_true]

theorem step_abort : step s (.abort t) = some s' ↔ s.frames t ≠ [] ∧
    s' = ((s.finish (s.frames t).flatten .aborted).setFrames t []).reset t := by
  constructor
  · intro h
    simp only [step] at h
    split at h
    · cases h
    · next fs hne => exact ⟨hne, (Option.some.inj h).symm⟩
  · rintro ⟨hne, rfl⟩
    simp only [step]

theorem step_insert {n : ℕ} : step s (.insert t n) = some s' ↔ ∃ x, s.writer t = some x ∧
    s.idle t = true ∧ s' = { s with groups := s.groups ++ [⟨n, x, none, []⟩] } := by
  constructor
  · intro h
    simp only [step, stepWrite] at h
    obtain ⟨x, hx, h⟩ := bind_eq_some_iff.mp h
    split_ifs at h with hidle
    exact ⟨x, hx, hidle, (Option.some.inj h).symm⟩
  · rintro ⟨x, hx, hidle, rfl⟩
    simp only [step, stepWrite, hx, hidle, if_true, bind_some]

theorem step_flushCheck : step s (.flushCheck t i rows) = some s' ↔ ∃ x g, s.writer t = some x ∧
    s.groups[i]? = some g ∧ (s.idle t = true ∧ s.lockFree t i = true ∧
      (∀ k ∈ rows, k < g.rowCount) ∧ g.visible (s.self t) = true) ∧
    s' = { s with
      locks := (i, x) :: s.locks
      flushing := update s.flushing t (some ⟨i, rows, none⟩) } := by
  constructor
  · intro h
    simp only [step, stepWrite] at h
    split at h
    · next x g hx hg =>
      split_ifs at h with hcond
      exact ⟨x, g, hx, hg, hcond, (Option.some.inj h).symm⟩
    · cases h
  · rintro ⟨x, g, hx, hg, hcond, rfl⟩
    simp only [step, stepWrite, hx, hg]
    rw [if_pos hcond]

theorem step_flushRead : step s (.flushRead t) = some s' ↔ ∃ i rows g,
    s.flushing t = some ⟨i, rows, none⟩ ∧ s.groups[i]? = some g ∧
    s' = { s with
      flushing := update s.flushing t
        (some ⟨i, rows, some (g.versions.findIdx? (Version.live (s.self t)))⟩) } := by
  constructor
  · intro h
    simp only [step, stepWrite] at h
    split at h
    · next i rows hf =>
      obtain ⟨g, hg, h⟩ := map_eq_some_iff.mp h
      exact ⟨i, rows, g, hf, hg, h.symm⟩
    · cases h
  · rintro ⟨i, rows, g, hf, hg, rfl⟩
    simp only [step, stepWrite, hf, hg, map_some]

theorem step_flushWrite : step s (.flushWrite t) = some s' ↔ ∃ x i rows found g,
    s.writer t = some x ∧ s.flushing t = some ⟨i, rows, some found⟩ ∧ s.groups[i]? = some g ∧
    (∀ j ∈ found, ∀ v ∈ g.versions[j]?, s.replaceable t v = true) ∧
    s' = { s with
      groups := s.groups.set i (g.upsert x rows found)
      flushing := update s.flushing t none } := by
  constructor
  · intro h
    simp only [step, stepWrite] at h
    split at h
    · next x i rows found hx hf =>
      obtain ⟨g, hg, h⟩ := bind_eq_some_iff.mp h
      split_ifs at h with hrep
      exact ⟨x, i, rows, found, g, hx, hf, hg, hrep, (Option.some.inj h).symm⟩
    · cases h
  · rintro ⟨x, i, rows, found, g, hx, hf, hg, hrep, rfl⟩
    simp only [step, stepWrite, hx, hf, hg, bind_some]
    rw [if_pos hrep]

variable {a : Action}

/-- Every deletion under way is in the snapshots that are held. -/
theorem Inv.step_hint (h : Inv s) {k : ℕ} {j : Option ℕ} : step s (.hint k i j) = none := by
  rw [eq_none_iff_forall_ne_some]
  intro s' hs
  simp only [step] at hs
  obtain ⟨snap, hsnap, hs⟩ := bind_eq_some_iff.mp hs
  obtain ⟨g, _, hs⟩ := bind_eq_some_iff.mp hs
  have hnot : ∀ y o, s.missed snap y o = false := by
    intro y o
    unfold State.missed
    rw [any_eq_false.mpr fun z _ =>
      decide_eq_false (h.clock.not_missed (mem_of_getElem? hsnap)), Bool.and_false]
  cases j with
  | none =>
    rw [State.hint, hnot] at hs
    cases hs
  | some j =>
    obtain ⟨v, _, hs⟩ := bind_eq_some_iff.mp hs
    rw [hnot] at hs
    cases hs

/-- A step of a pass changes the pass, and at most retires the group it has come to. -/
theorem step_pass (hi : Inv s) (ha : a.ofPass = true) (h : step s a = some s') : ∃ t o,
    s' = { s with pass := update s.pass t o } ∧
      (∀ p ∈ o, (∃ h, p = ⟨h, none⟩ ∧ s.isHorizon h = true) ∨
        ∃ q ∈ s.pass t, p.oldestXmin = q.oldestXmin ∧ ∀ l ∈ p.todo, ∀ i ∈ l,
          (∃ l ∈ q.todo, i ∈ l) ∨ i ∈ s.computeFullyDeletedGroups t p.oldestXmin) ∨
    ∃ x i g rest h, s.current t = some x ∧ s.groups[i]? = some g ∧
      s.pass t = some ⟨h, some (i :: rest)⟩ ∧ o = some ⟨h, some rest⟩ ∧ Retirable s t g ∧
      s' = { s with
        groups := s.groups.set i (g.retire (s.self t) x)
        pass := update s.pass t o } := by
  cases a with
  | passHorizon t oldestXmin =>
    simp only [step, stepPass] at h
    obtain ⟨hcond, h⟩ := ite_none_right_eq_some.mp h
    refine ⟨t, some ⟨oldestXmin, none⟩, .inl ⟨(Option.some.inj h).symm, ?_⟩⟩
    intro p hp
    exact .inl ⟨oldestXmin, (Option.some.inj hp).symm, hcond.2.2⟩
  | passList t =>
    simp only [step, stepPass] at h
    split at h
    · next oldestXmin hp =>
      refine ⟨t, _, .inl ⟨(Option.some.inj h).symm, fun p hp' => .inr ⟨_, hp, ?_⟩⟩⟩
      cases hp'
      exact ⟨rfl, fun l hl i hi => .inr (by rw [← Option.some.inj hl] at hi; exact hi)⟩
    · cases h
  | passRetire t =>
    simp only [step, stepPass] at h
    split at h
    · next x oldestXmin i rest hx hp =>
      split at h
      · cases h
      · next g hg =>
        split at h
        · refine ⟨t, _, .inl ⟨(Option.some.inj h).symm, fun p hp' => .inr ⟨_, hp, ?_⟩⟩⟩
          cases hp'
          refine ⟨rfl, fun l hl j hj => .inl ⟨_, rfl, ?_⟩⟩
          rw [← Option.some.inj hl] at hj
          exact mem_cons_of_mem _ hj
        · next hvis =>
          obtain ⟨hwait, h⟩ := ite_none_left_eq_some.mp h
          -- nobody who is under way has to be waited for
          rw [not_or, not_exists] at hwait
          refine ⟨t, _, .inr ⟨x, i, g, rest, oldestXmin, hx, hg, hp, rfl, ⟨?_, ?_, ?_⟩,
            (Option.some.inj h).symm⟩⟩
          · simpa using hvis
          · intro y hy hrun
            apply hwait.1
            rw [hy]
            simp [State.pending, hrun]
          · intro v hv hlive y hy hrun
            refine hwait.2 v ⟨hv, hlive, .inr ?_⟩
            rw [hy]
            simp [State.pending, hrun]
    · cases h
  | passEnd t =>
    simp only [step, stepPass] at h
    split at h
    · exact ⟨t, none, .inl ⟨(Option.some.inj h).symm, nofun⟩⟩
    · cases h
  | hint k i j =>
    -- every deletion under way is in the snapshots, so there is nothing to hint
    rw [hi.step_hint] at h
    cases h
  | _ => cases ha

/-! ### The invariant along a run -/

theorem inv_init (lazy : ℕ → Bool) : Inv (State.init lazy) where
  clock := Clock.Wf.init
  frames := ⟨nofun, fun _ => nodup_nil, nofun, fun _ _ => rfl⟩
  groups := nofun
  locks := ⟨nofun, nofun, nofun⟩
  oneLive := nofun
  flush := nofun
  pass := nofun
  plain := nofun

theorem State.idle_eq_true {s : State} : s.idle t = true ↔ s.flushing t = none ∧
    s.pass t = none := by
  simp [State.idle]

theorem Inv.stepPass (h : Inv s) (ha : a.ofPass = true) (hs : step s a = some s') : Inv s' := by
  obtain ⟨t, o, ⟨rfl, ho⟩ | ⟨x, i, g, rest, hor, hx, hg, hp, rfl, hr, rfl⟩⟩ := step_pass h ha hs
  · apply h.setPass
    intro p hp
    rcases ho p hp with ⟨hor, rfl, hhor⟩ | ⟨q, hq, heq, htodo⟩
    · exact ⟨before_of_isHorizon h hhor, nofun⟩
    · have hqok := h.pass t q hq
      have hhor : Before s.lazy s.clock p.oldestXmin := by
        rw [heq]
        exact hqok.horizon
      refine ⟨hhor, fun l hl i hi => ?_⟩
      rcases htodo l hl i hi with ⟨l', hl', hi'⟩ | hlisted
      · exact hqok.todo l' hl' i hi'
      · exact dead_of_listed h hhor hlisted
  · have hpok := h.pass t _ hp
    obtain ⟨a, ha, hdead⟩ := hpok.todo _ rfl i mem_cons_self
    rw [hg] at ha
    cases ha
    have h1 := h.retire hx hg hr hdead
    refine h1.setPass (t := t) (o := some ⟨hor, some rest⟩) fun p hp' => ?_
    cases hp'
    refine ⟨hpok.horizon, fun l hl j hj => ?_⟩
    obtain ⟨b, hb, hbdead⟩ := hpok.todo _ rfl j
      (mem_cons_of_mem _ (by rw [← Option.some.inj hl] at hj; exact hj))
    by_cases hij : i = j
    · subst hij
      rw [hg] at hb
      cases hb
      exact ⟨_, (getElem?_set_eq_some hg).mpr (.inl ⟨rfl, rfl⟩), hbdead.retire⟩
    · exact ⟨b, (getElem?_set_eq_some hg).mpr (.inr ⟨hij, hb⟩), hbdead⟩

/-- The steps of transactions that leave the groups alone. -/
def Action.isTick : Action → Bool
  | .begin | .beginSub _ | .commitSub _ | .abortSub _ | .commit _ | .abort _ | .takeSnapshot
  | .dropSnapshot _ => true
  | _ => false

theorem Inv.tick_of_step (h : Inv s) (ha : a.isTick = true) (hl : a.Listed s)
    (hs : step s a = some s') : Tick s s' := by
  cases a with
  | begin =>
    cases hs
    have hfr : s.frames s.clock.next = [] := h.frames.fresh _ (Nat.le_refl _)
    have hidle : s.flushing s.clock.next = none := by
      cases hf : s.flushing s.clock.next with
      | none => rfl
      | some f => exact absurd hfr (h.frames_ne_nil hf)
    have ht := h.tick_begin hidle (Nat.le_refl _)
    rw [hfr] at ht
    exact ht
  | beginSub t =>
    obtain ⟨hne, hidle, rfl⟩ := step_beginSub.mp hs
    exact h.tick_begin (State.idle_eq_true.mp hidle.1).1 (Nat.le_of_lt (h.frames.lt_next hne))
  | commitSub t =>
    obtain ⟨f, f', fs, hfr, hidle, rfl⟩ := step_commitSub.mp hs
    exact h.tick_commitSub (State.idle_eq_true.mp hidle).1 hfr
  | abortSub t =>
    obtain ⟨f, f', fs, hfr, rfl⟩ := step_abortSub.mp hs
    have ht := h.tick_abort (show s.frames t = [f] ++ f' :: fs from hfr)
    rw [flatten_cons, flatten_nil, append_nil] at ht
    exact ht
  | commit t =>
    obtain ⟨f, hfr, hidle, rfl⟩ := step_commit.mp hs
    exact h.tick_commit (State.idle_eq_true.mp hidle).1 hfr
  | abort t =>
    obtain ⟨_, rfl⟩ := step_abort.mp hs
    exact h.tick_abort (append_nil (s.frames t)).symm
  | takeSnapshot =>
    cases hs
    rw [Clock.takeSnapshotBut_eq hl]
    exact h.tick_clock .takeSnapshot rfl rfl
  | dropSnapshot i =>
    cases hs
    exact h.tick_clock (.dropSnapshot i) rfl rfl
  | _ => cases ha

theorem Inv.flushCheck (h : Inv s) (hx : s.current t = some x) (hg : s.groups[i]? = some g)
    (hfree : s.lockFree t i = true) (hrows : ∀ k ∈ rows, k < g.rowCount) :
    Inv { s with
      locks := (i, x) :: s.locks
      flushing := update s.flushing t (some ⟨i, rows, none⟩) } := by
  have h1 := h.lock hx hfree
  refine h1.setFlushing (t := t) (o := some ⟨i, rows, none⟩) fun f hf => ?_
  cases hf
  exact ⟨g, hg, ⟨x, hx, mem_cons_self⟩, hrows, nofun, nofun⟩

theorem Inv.flushRead (h : Inv s) (hf : s.flushing t = some ⟨i, rows, none⟩)
    (hg : s.groups[i]? = some g) :
    Inv { s with
      flushing := update s.flushing t
        (some ⟨i, rows, some (g.versions.findIdx? (Version.live (s.self t)))⟩) } := by
  obtain ⟨a, hok⟩ := h.flush t _ hf
  have heq : a = g := Option.some.inj (hok.group.symm.trans hg)
  subst heq
  apply h.setFlushing
  intro f hf'
  cases hf'
  refine ⟨a, hok.group, hok.lock, hok.rows, fun hnone v hv => ?_, fun j hj => ?_⟩
  · exact findIdx?_eq_none_iff.mp (Option.some.inj hnone) v hv
  · obtain ⟨hlt, hlive, _⟩ := findIdx?_eq_some_iff_getElem.mp (Option.some.inj hj)
    obtain ⟨hmin, hmax, _⟩ := Version.live_eq_true.mp hlive
    exact ⟨_, getElem?_eq_getElem hlt, hmin, hmax⟩

/-- Every step keeps the invariant. -/
theorem Inv.step (h : Inv s) (hs : step s a = some s') (hl : a.Listed s) : Inv s' := by
  by_cases hpass : a.ofPass = true
  · exact h.stepPass hpass hs
  · by_cases htick : a.isTick = true
    · exact h.tick (h.tick_of_step htick hl hs)
    · cases a with
      | insert t n =>
        obtain ⟨x, _, _, rfl⟩ := step_insert.mp hs
        exact h.insert n x
      | flushCheck t i rows =>
        obtain ⟨x, g, hx, hg, ⟨_, hfree, hrows, _⟩, rfl⟩ := step_flushCheck.mp hs
        exact h.flushCheck (State.writer_eq_some.mp hx).1 hg hfree hrows
      | flushRead t =>
        obtain ⟨i, rows, g, hf, hg, rfl⟩ := step_flushRead.mp hs
        exact h.flushRead hf hg
      | flushWrite t =>
        obtain ⟨x, i, rows, found, g, hx, hf, hg, hrep, rfl⟩ := step_flushWrite.mp hs
        exact h.upsert hx hf hg hrep
      | passHorizon _ _ | passList _ | passRetire _ | passEnd _ | hint _ _ _ =>
        exact absurd rfl hpass
      | _ => exact absurd rfl htick

end PgColumnar.Compact
