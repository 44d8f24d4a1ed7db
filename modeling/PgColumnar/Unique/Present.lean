import PgColumnar.Unique.Probe

/-!
# No false conflict

In every run whose steps are `Benign`, a probe that answers that its row is present, and names
nobody, has seen the row live at some moment since it began.

The reads of a probe are not of one moment.  What ties them together is the version of the group
that was found: as long as nobody who has deleted it commits, it is there when the delete vectors
are read, so that the row was covered and not deleted at that moment.

## Main definitions

* `Standing`, `Observed` — what a probe under way knows.

## Main results

* `present_live_of_run` — a row that is answered to be present has been live.
-/

namespace PgColumnar.Unique

open Dirty Run State List Option Bool

variable {s s' : State} {top : ℕ}

/-! ### Transactions that end -/

variable {x : Xid}

theorem mine_running (h : s.mine top x = true) : s.fate x = .running := by
  unfold mine at h
  simpa using (and_eq_true_iff.mp h).2

theorem mine_top (h : s.mine top x = true) : x.top = top := by
  unfold mine at h
  simpa using (and_eq_true_iff.mp h).1

theorem ended_of_running (h : s.fate x = .running) : s.ended x.top = none := by
  unfold State.fate at h
  split_ifs at h
  cases he : s.ended x.top with
  | none => rfl
  | some b => cases b <;> simp [he] at h

theorem not_committed_of_ended (h : s.ended x.top = none) : s.fate x ≠ .committed := by
  unfold State.fate
  rw [h]
  split <;> simp

theorem fate_rollback {xs : List Xid} (hended : s'.ended = s.ended)
    (hrolled : s'.rolledBack = s.rolledBack ++ xs) (x : Xid) :
    s'.fate x = if x ∈ xs then .aborted else s.fate x := by
  unfold State.fate
  rw [hended, hrolled]
  by_cases hx : x ∈ xs <;> simp [hx]

theorem fate_finish {commits : Bool} (hrolled : s'.rolledBack = s.rolledBack)
    (hended : s'.ended = fun t => if t = top then some commits else s.ended t) (x : Xid) :
    s'.fate x = if x ∈ s.rolledBack then .aborted
      else if x.top = top then (if commits then .committed else .aborted) else s.fate x := by
  unfold State.fate
  rw [hended, hrolled]
  by_cases hx : x ∈ s.rolledBack
  · simp [hx]
  · by_cases ht : x.top = top <;> cases commits <;> simp [hx, ht]

/-- Some transactions have ended. -/
def Moved (s s' : State) : Prop := ∀ x, s.fate x ≠ .running → s'.fate x = s.fate x

theorem moved_rollback {xs : List Xid} (hended : s'.ended = s.ended)
    (hrolled : s'.rolledBack = s.rolledBack ++ xs) (hrunning : ∀ x ∈ xs, s.fate x = .running) :
    Moved s s' := by
  intro x hx
  rw [fate_rollback hended hrolled, if_neg]
  exact fun hmem => hx (hrunning x hmem)

theorem moved_finish {commits : Bool} (hrolled : s'.rolledBack = s.rolledBack)
    (hended : s'.ended = fun t => if t = top then some commits else s.ended t)
    (hrunning : s.ended top = none) : Moved s s' := by
  intro x hx
  rw [fate_finish hrolled hended]
  by_cases hmem : x ∈ s.rolledBack
  · simp [State.fate, hmem]
  · rw [if_neg hmem, if_neg]
    intro htop
    apply hx
    simp [State.fate, hmem, htop, hrunning]

theorem Moved.not_aborted (h : Moved s s') (hx : s'.fate x ≠ .aborted) : s.fate x ≠ .aborted := by
  intro habort
  rw [h x (by simp [habort])] at hx
  exact hx habort

theorem Moved.running (h : Moved s s') (hx : s'.fate x = .running) : s.fate x = .running := by
  by_contra hnot
  exact hnot (h x hnot ▸ hx)

/-- A transaction that is seen after the step, and was not before, has committed in it. -/
theorem Moved.committed_of_sees (h : Moved s s') (hbefore : sees (s.mine top) s.fate x = false)
    (hafter : sees (s'.mine top) s'.fate x = true) :
    s.fate x = .running ∧ s'.fate x = .committed := by
  obtain ⟨hmine, hfate⟩ : s.mine top x = false ∧ s.fate x ≠ .committed := by
    simpa [sees] using hbefore
  rcases or_eq_true_iff.mp hafter with hmine' | hfate'
  · have hrunning := h.running (mine_running hmine')
    simp [mine, mine_top hmine', hrunning] at hmine
  · have hcommitted : s'.fate x = .committed := by simpa using hfate'
    refine ⟨?_, hcommitted⟩
    by_contra hnot
    exact hfate (h x hnot ▸ hcommitted)

/-! ### The invariant -/

/-- The group that a probe has found is there, and nobody who has deleted it is seen. -/
def Standing (s : State) (top : ℕ) (p : Probe) (v : Version Xid Group) : Prop :=
  p.wasLive = true ∨ s.fate v.xmin = .aborted ∨ ∃ w ∈ s.rowGroup, w.val = v.val ∧ w.xmin = v.xmin ∧
    ∀ d ∈ w.xmax, sees (s.mine top) s.fate d = false

structure Inv (s : State) : Prop where
  /-- No two groups cover one row. -/
  one : ∀ v ∈ s.rowGroup, ∀ w ∈ s.rowGroup, s.fate v.xmin ≠ .aborted → s.fate w.xmin ≠ .aborted →
    ∀ row, v.val.covers row = true → w.val.covers row = true → v.val = w.val
  /-- A group whose writer has not committed is deleted by nobody else. -/
  stamps : ∀ v ∈ s.rowGroup, ∀ d ∈ v.xmax, s.fate v.xmin = .committed ∨ d.top = v.xmin.top
  found : ∀ q ∈ s.probes, ∀ v ∈ q.2.stage.group, v.val.covers q.2.row = true ∧ Standing s q.1 q.2 v
  answers : ∀ a ∈ s.answers, a.present = true → a.names.isNone = true → a.wasLive = true

/-- Every probe knows whether its row is live. -/
def Observed (s : State) : Prop := ∀ q ∈ s.probes, s.live q.1 q.2.row = true → q.2.wasLive = true

theorem Inv.initial : Inv initial := ⟨nofun, nofun, nofun, nofun⟩

theorem observed_observe (s : State) : Observed s.observe := by
  intro q hq hlive
  obtain ⟨r, hr, rfl⟩ := mem_map.mp hq
  have hl : s.live r.1 r.2.row = true := hlive
  simp [hl]

theorem Inv.observe (h : Inv s) : Inv s.observe :=
  { h with
    found := by
      intro q hq v hv
      obtain ⟨r, hr, rfl⟩ := mem_map.mp hq
      obtain ⟨hcovers, hstanding⟩ := h.found r hr v hv
      refine ⟨hcovers, ?_⟩
      rcases hstanding with hlive | hstanding
      · exact .inl (by simp [hlive])
      · exact .inr hstanding }

/-! ### Steps of other transactions -/

/-- The transaction of a probe is in the middle of it. -/
theorem ne_of_idle {q : ℕ × Probe} (hq : q ∈ s.probes) (hidle : s.idle top = true) : q.1 ≠ top := by
  rintro rfl
  have hnone : s.probes.lookup q.1 = none := by simpa [idle] using hidle
  rw [lookup_eq_none_iff] at hnone
  simpa using hnone q hq

theorem canStep_iff : s.canStep x = true ↔ s.fate x = .running ∧ s.idle x.top = true := by
  simp [canStep]

/-- Transactions end, and no other that has deleted the group of a probe commits. -/
theorem Inv.moved (h : Inv s) (hmoved : Moved s s') (hgroups : s'.rowGroup = s.rowGroup)
    (hprobes : s'.probes = s.probes) (hanswers : s'.answers = s.answers)
    (hseen : ∀ q ∈ s.probes, ∀ v ∈ q.2.stage.group, ∀ w ∈ s.rowGroup, w.val = v.val →
      ∀ d ∈ w.xmax, s.fate d = .running → s'.fate d = .committed → q.2.wasLive = true) :
    Inv s' where
  one := by
    rw [hgroups]
    intro v hv w hw hv' hw'
    exact h.one v hv w hw (hmoved.not_aborted hv') (hmoved.not_aborted hw')
  stamps := by
    rw [hgroups]
    intro v hv d hd
    rcases h.stamps v hv d hd with hcommitted | htop
    · exact .inl ((hmoved _ (by simp [hcommitted])).trans hcommitted)
    · exact .inr htop
  found := by
    rw [hprobes]
    intro q hq v hv
    obtain ⟨hcovers, hstanding⟩ := h.found q hq v hv
    refine ⟨hcovers, ?_⟩
    rcases hstanding with hlive | habort | ⟨w, hw, hval, hmin, hmax⟩
    · exact .inl hlive
    · exact .inr (.inl ((hmoved _ (by simp [habort])).trans habort))
    · by_cases hall : ∀ d ∈ w.xmax, sees (s'.mine q.1) s'.fate d = false
      · exact .inr (.inr ⟨w, hgroups ▸ hw, hval, hmin, hall⟩)
      · simp only [not_forall, not_eq_false] at hall
        obtain ⟨d, hd, hsees⟩ := hall
        obtain ⟨hrunning, hcommitted⟩ := hmoved.committed_of_sees (hmax d hd) hsees
        exact .inl (hseen q hq v hv w hw hval d hd hrunning hcommitted)
  answers := hanswers ▸ h.answers

theorem Inv.flush (h : Inv s) {g : Group} {pos : ℕ} (buffered : List (Xid × ℕ))
    (hfree : ∀ v ∈ s.rowGroup, s.fate v.xmin ≠ .aborted →
      v.val.firstRowNumber + v.val.rowCount ≤ g.firstRowNumber ∨
        g.firstRowNumber + g.rowCount ≤ v.val.firstRowNumber) :
    Inv { s with rowGroup := insertAt pos ⟨g, x, none⟩ s.rowGroup, buffered := buffered } where
  one := by
    have hnew : ∀ v ∈ s.rowGroup, s.fate v.xmin ≠ .aborted → ∀ row, v.val.covers row = true →
        g.covers row = true → v.val = g := by
      intro v hv hlive row hcv hcg
      have hcv' := of_decide_eq_true hcv
      have hcg' := of_decide_eq_true hcg
      rcases hfree v hv hlive with hle | hle <;> omega
    intro v hv w hw hv' hw' row hcv hcw
    rcases mem_insertAt.mp hv with rfl | hv
    · rcases mem_insertAt.mp hw with rfl | hw
      · rfl
      · exact (hnew w hw hw' row hcw hcv).symm
    · rcases mem_insertAt.mp hw with rfl | hw
      · exact hnew v hv hv' row hcv hcw
      · exact h.one v hv w hw hv' hw' row hcv hcw
  stamps := by
    intro v hv d hd
    rcases mem_insertAt.mp hv with rfl | hv
    · cases hd
    · exact h.stamps v hv d hd
  found := by
    intro q hq v hv
    obtain ⟨hcovers, hstanding⟩ := h.found q hq v hv
    refine ⟨hcovers, ?_⟩
    rcases hstanding with hlive | habort | ⟨w, hw, hw'⟩
    · exact .inl hlive
    · exact .inr (.inl habort)
    · exact .inr (.inr ⟨w, mem_insertAt.mpr (.inr hw), hw'⟩)
  answers := h.answers

/-- A version after the deletion of those that a transaction sees. -/
theorem mem_deleteSeen {α : Type} {p : α → Bool} {tab : List (Version Xid α)}
    {v : Version Xid α} (hv : v ∈ s.deleteSeen x p tab) : ∃ w ∈ tab, v.val = w.val ∧
      v.xmin = w.xmin ∧
      (v.xmax = w.xmax ∨ v.xmax = some x ∧ sees (s.mine x.top) s.fate w.xmin = true) := by
  obtain ⟨w, hw, rfl⟩ := mem_map.mp hv
  refine ⟨w, hw, ?_⟩
  split
  · next hseen =>
    have hmin := (and_eq_true_iff.mp (and_eq_true_iff.mp hseen).1).1
    exact ⟨rfl, rfl, .inr ⟨rfl, hmin⟩⟩
  · exact ⟨rfl, rfl, .inl rfl⟩

theorem deleteSeen_of_mem {α : Type} {p : α → Bool} {tab : List (Version Xid α)}
    {w : Version Xid α} (hw : w ∈ tab) : ∃ v ∈ s.deleteSeen x p tab, v.val = w.val ∧
      v.xmin = w.xmin ∧
      (v.xmax = w.xmax ∨ v.xmax = some x) := by
  refine ⟨_, mem_map.mpr ⟨w, hw, rfl⟩, ?_⟩
  split
  · exact ⟨rfl, rfl, .inr rfl⟩
  · exact ⟨rfl, rfl, .inl rfl⟩

theorem Inv.retire (h : Inv s) {p : Group → Bool}
    (deleteVector : List (Version Xid DeleteVector)) (hstep : s.canStep x = true) :
    Inv { s with deleteVector := deleteVector, rowGroup := s.deleteSeen x p s.rowGroup } where
  one := by
    intro v (hv : v ∈ s.deleteSeen x p s.rowGroup) w (hw : w ∈ s.deleteSeen x p s.rowGroup) hv' hw'
    obtain ⟨v₀, hv₀, hval, hmin, -⟩ := mem_deleteSeen hv
    obtain ⟨w₀, hw₀, hval', hmin', -⟩ := mem_deleteSeen hw
    rw [hval, hval']
    exact h.one v₀ hv₀ w₀ hw₀ (hmin ▸ hv') (hmin' ▸ hw')
  stamps := by
    intro v (hv : v ∈ s.deleteSeen x p s.rowGroup) d hd
    obtain ⟨w, hw, -, hmin, hmax⟩ := mem_deleteSeen hv
    rw [hmin]
    rcases hmax with hmax | ⟨hmax, hsees⟩
    · exact h.stamps w hw d (hmax ▸ hd)
    · cases hmax ▸ hd
      rcases or_eq_true_iff.mp hsees with hmine | hcommitted
      · exact .inr (mine_top hmine).symm
      · exact .inl (of_decide_eq_true hcommitted)
  found := by
    intro q hq v hv
    obtain ⟨hrunning, hidle⟩ := canStep_iff.mp hstep
    obtain ⟨hcovers, hstanding⟩ := h.found q hq v hv
    refine ⟨hcovers, ?_⟩
    rcases hstanding with hlive | habort | ⟨w, hw, hval, hmin, hmax⟩
    · exact .inl hlive
    · exact .inr (.inl habort)
    · obtain ⟨w', hw', hval', hmin', hmax'⟩ :=
        deleteSeen_of_mem (s := s) (x := x) (p := p) hw
      refine .inr (.inr ⟨w', hw', hval'.trans hval, hmin'.trans hmin, fun d hd => ?_⟩)
      rcases hmax' with hmax' | hmax'
      · exact hmax d (hmax' ▸ hd)
      · -- the one that retires the group is running, and is not the transaction of the probe
        cases hmax' ▸ hd
        have hne : x.top ≠ q.1 := (ne_of_idle hq hidle).symm
        have hnot : sees (s.mine q.1) s.fate x = false := by simp [sees, mine, hrunning, hne]
        exact hnot
  answers := h.answers

theorem mem_of_eraseIdx {α : Type} {i : ℕ} {a : α} {l : List α} (h : a ∈ l) :
    a ∈ l.eraseIdx i ∨ l[i]? = some a := by
  obtain ⟨j, hj⟩ := mem_iff_getElem?.mp h
  by_cases hij : j = i
  · exact .inr (hij ▸ hj)
  · exact .inl (mem_eraseIdx_iff_getElem?.mpr ⟨j, hij, hj⟩)

theorem Inv.pruneGroup (h : Inv s) {i : ℕ}
    (hdead : ((s.rowGroup[i]?).any fun v => v.dead s.fate) = true) :
    Inv { s with rowGroup := s.rowGroup.eraseIdx i } where
  one v hv w hw := h.one v (mem_of_mem_eraseIdx hv) w (mem_of_mem_eraseIdx hw)
  stamps v hv := h.stamps v (mem_of_mem_eraseIdx hv)
  found := by
    intro q hq v hv
    obtain ⟨hcovers, hstanding⟩ := h.found q hq v hv
    refine ⟨hcovers, ?_⟩
    rcases hstanding with hlive | habort | ⟨w, hw, hval, hmin, hmax⟩
    · exact .inl hlive
    · exact .inr (.inl habort)
    · rcases mem_of_eraseIdx (i := i) hw with hw | hi
      · exact .inr (.inr ⟨w, hw, hval, hmin, hmax⟩)
      · rw [hi, any_some] at hdead
        rcases or_eq_true_iff.mp hdead with habort | hcommitted
        · exact .inr (.inl (hmin ▸ of_decide_eq_true habort))
        · cases hxmax : w.xmax with
          | none => simp [hxmax] at hcommitted
          | some d =>
            have hfate : s.fate d = .committed := by simpa [hxmax] using hcommitted
            simpa [sees, hfate] using hmax d hxmax
  answers := h.answers

/-! ### The reads of a probe -/

variable {p : Probe}

theorem Inv.putProbe (h : Inv s)
    (hp : ∀ v ∈ p.stage.group, v.val.covers p.row = true ∧ Standing s top p v) :
    Inv (s.putProbe top p) :=
  { h with
    found := by
      refine forall_mem_cons.mpr ⟨?_, fun q hq v hv => h.found q (mem_of_mem_filter hq) v hv⟩
      intro v hv
      exact hp v hv }

theorem Inv.answer (h : Inv s) {a : Answer}
    (ha : a.present = true → a.names.isNone = true → a.wasLive = true) : Inv (s.answer top a) where
  one := h.one
  stamps := h.stamps
  found q hq := h.found q (mem_of_mem_filter hq)
  answers := by
    intro b hb
    rcases mem_append.mp hb with hb | hb
    · exact h.answers b hb
    · exact mem_singleton.mp hb ▸ ha

theorem mem_probes (h : s.probes.lookup top = some p) : (top, p) ∈ s.probes := by
  obtain ⟨l₁, l₂, heq, -⟩ := lookup_eq_some_iff.mp h
  simp [heq]

/-- Without a name, a row that is not live is present in the own buffer only. -/
theorem answerNotLive_wasLive (hobs : Observed s) (hp : (top, p) ∈ s.probes)
    (hbuffered : s.isBuffered top p.row = true → s.deletedFor top p.row = false)
    (names : Names Xid) :
    let a := s.answerNotLive top p names
    a.present = true → a.names.isNone = true → a.wasLive = true := by
  intro a hpresent hnone
  have hb : s.isBuffered top p.row = true := by
    have hnames : names.isNone = true := hnone
    simpa [a, answerNotLive, hnames] using hpresent
  exact hobs (top, p) hp (by simp [live, liveTo, hb, hbuffered hb])

/-- The group that the first read finds stands. -/
theorem Inv.standing_of_dirty {v : Version Xid Group} (h : Inv s) (hv : v ∈ s.rowGroup)
    (hdirty : (dirty (s.mine top) s.fate v).1 = true) : Standing s top p v := by
  refine .inr (.inr ⟨v, hv, rfl, rfl, ?_⟩)
  by_cases hsees : sees (s.mine top) s.fate v.xmin = true
  · refine xmax_of_dirty hsees (fun hmine d hd hcommitted => ?_) hdirty
    have hrunning := mine_running hmine
    rcases h.stamps v hv d hd with hfate | htop
    · simp [hrunning] at hfate
    · exact not_committed_of_ended (htop ▸ ended_of_running hrunning) hcommitted
  · -- another transaction is writing the group, and nobody else can have deleted it
    have hnot : s.mine top v.xmin = false ∧ s.fate v.xmin ≠ .committed := by
      simpa [sees] using hsees
    have hrunning : s.fate v.xmin = .running := by
      have habort := fate_of_dirty (fun x hx => mine_running hx) hdirty
      cases hfate : s.fate v.xmin with
      | running => rfl
      | committed => exact (hnot.2 hfate).elim
      | aborted => exact (habort hfate).elim
    intro d hd
    have htop : d.top = v.xmin.top := (h.stamps v hv d hd).resolve_left hnot.2
    have hother : d.top ≠ top := by
      rw [htop]
      intro heq
      simp [mine, heq, hrunning] at hnot
    have hfate := not_committed_of_ended (htop ▸ ended_of_running hrunning)
    simp [sees, mine, hother, hfate]

theorem Inv.readGroups (h : Inv s) (hobs : Observed s) (hp : (top, p) ∈ s.probes)
    (hbuffered : s.isBuffered top p.row = true → s.deletedFor top p.row = false) :
    Inv (s.readGroups top p) := by
  unfold State.readGroups
  dsimp only
  split
  · next v hfind =>
    have hmem := mem_scan.mp (mem_of_find?_eq_some hfind)
    have hcovers : v.val.covers p.row = true := by simpa using find?_some hfind
    refine h.putProbe fun w hw => ?_
    cases hw
    exact ⟨hcovers, h.standing_of_dirty hmem.1 hmem.2⟩
  · exact h.answer (answerNotLive_wasLive hobs hp hbuffered _)

/-- A group that is seen and stands covers a row that no delete vector marks: the row is live. -/
theorem Inv.live_of_standing {v : Version Xid Group} (h : Inv s) {w : Version Xid Group}
    (hw : w ∈ s.rowGroup) (hval : w.val = v.val) (hcovers : v.val.covers p.row = true)
    (hsees : sees (s.mine top) s.fate w.xmin = true)
    (hmax : ∀ d ∈ w.xmax, sees (s.mine top) s.fate d = false)
    (hread : s.readsDeleted top p v.val = false) : s.live top p.row = true := by
  have hseen : w.seen (s.mine top) s.fate = true := by
    cases hx : w.xmax with
    | none => simp [Version.seen, hsees, hx]
    | some d => simp [Version.seen, hsees, hx, hmax d hx]
  have hcovered : s.covered (s.mine top) p.row = true :=
    any_eq_true.mpr ⟨w, hw, by simp [hseen, hval, hcovers]⟩
  obtain ⟨hmarked, hscan⟩ := or_eq_false_iff.mp hread
  have hdeleted : s.deleted (s.mine top) p.row = false := by
    apply eq_false_iff.mpr
    intro hdel
    obtain ⟨u, hu, hdel⟩ := any_eq_true.mp hdel
    obtain ⟨huc, hdel⟩ := and_eq_true_iff.mp hdel
    obtain ⟨huseen, hucovers⟩ := and_eq_true_iff.mp huc
    have hlive : ∀ x, sees (s.mine top) s.fate x = true → s.fate x ≠ .aborted := by
      intro x hx habort
      simp [sees, mine, habort] at hx
    have huv : u.val = v.val := by
      rw [← hval]
      exact h.one u hu w hw (hlive _ (and_eq_true_iff.mp huseen).1) (hlive _ hsees) p.row hucovers
        (hval ▸ hcovers)
    obtain ⟨d, hd, hdel⟩ := any_eq_true.mp hdel
    simp only [and_eq_true, decide_eq_true_eq, huv] at hdel
    obtain ⟨⟨hdseen, hnumber⟩, hbits⟩ := hdel
    -- what the transaction sees, the second read returns
    have hmem : d ∈ (scan (s.mine top) s.fate (s.deleteVectorsOf v.val.number) p.names).1 :=
      mem_scan.mpr ⟨mem_filter.mpr ⟨hd, by simp [hnumber]⟩,
        dirty_of_seen (fun x hx => mine_running hx) hdseen⟩
    exact eq_false_iff.mp hscan (any_eq_true.mpr ⟨d, hmem, hbits⟩)
  simp [live, liveTo, deletedFor, hcovered, hmarked, hdeleted]

theorem Inv.readDeletes {v : Version Xid Group} (h : Inv s) (hobs : Observed s) {row : ℕ}
    {names : Names Xid} {wasLive : Bool} (hp : (top, ⟨row, .found v, names, wasLive⟩) ∈ s.probes)
    (hbuffered : s.isBuffered top row = true → s.deletedFor top row = false)
    (hnamed : s.readsDeleted top ⟨row, .found v, names, wasLive⟩ v.val = false →
      sees (s.mine top) s.fate v.xmin = false →
      ((s.deleteVectorsOf v.val.number).getLast?.map fun d =>
        !(dirty (s.mine top) s.fate d).2.isNone).getD (!names.isNone) = true) :
    Inv (s.readDeletes top ⟨row, .found v, names, wasLive⟩ v.val) := by
  refine h.answer ?_
  by_cases hread : s.readsDeleted top ⟨row, .found v, names, wasLive⟩ v.val = true
  · rw [if_pos hread]
    exact answerNotLive_wasLive hobs hp hbuffered _
  · rw [if_neg hread]
    rw [not_eq_true] at hread
    intro _ hnone
    obtain ⟨hcovers, hstanding⟩ := h.found _ hp v rfl
    -- nobody is named, so that the group is seen
    have hsees : sees (s.mine top) s.fate v.xmin = true := by
      by_contra hnot
      rw [not_eq_true] at hnot
      cases hlast : (s.deleteVectorsOf v.val.number).getLast? with
      | none | some d => simp_all [scan]
    rcases hstanding with hlive | habort | ⟨w, hw, hval, hmin, hmax⟩
    · exact hlive
    · simp [sees, mine, habort] at hsees
    · exact hobs _ hp (h.live_of_standing hw hval hcovers (hmin ▸ hsees) hmax hread)

/-! ### Runs -/

theorem Inv.act (h : Inv s) (hobs : Observed s) {a : Action} (hok : Benign s a)
    (hact : s.act a = some s') : Inv s' := by
  -- what a step does not touch is there by definition
  have hsame : ∀ deleteVector buffered marked, Inv { s with deleteVector, buffered, marked } :=
    fun _ _ _ => ⟨h.one, h.stamps, h.found, h.answers⟩
  cases a with
  | append x row | mark x row | release x parent | pruneDeleteVector i =>
    simp only [State.act, ite_none_right_eq_some, Option.some.injEq] at hact
    obtain ⟨-, rfl⟩ := hact
    exact hsame _ _ _
  | flush x g pos keep =>
    simp only [State.act, ite_none_right_eq_some, Option.some.injEq] at hact
    obtain ⟨⟨-, hfree⟩, rfl⟩ := hact
    exact h.flush _ hfree
  | flushMarks x n bits pos keep =>
    simp only [State.act] at hact
    split at hact
    · simp only [ite_none_right_eq_some, Option.some.injEq] at hact
      obtain ⟨-, rfl⟩ := hact
      exact hsame _ _ _
    · cases hact
  | retire x n =>
    simp only [State.act, ite_none_right_eq_some, Option.some.injEq] at hact
    obtain ⟨⟨hstep, -⟩, rfl⟩ := hact
    exact h.retire _ hstep
  | rollback xs =>
    simp only [State.act, ite_none_right_eq_some, Option.some.injEq] at hact
    obtain ⟨hall, hs'⟩ := hact
    have hended : s'.ended = s.ended := by rw [← hs']
    have hrolled : s'.rolledBack = s.rolledBack ++ xs := by rw [← hs']
    have hrunning : ∀ x ∈ xs, s.fate x = .running := fun x hx =>
      (canStep_iff.mp (all_eq_true.mp hall x hx)).1
    refine h.moved (moved_rollback hended hrolled hrunning) (by rw [← hs']) (by rw [← hs'])
      (by rw [← hs']) ?_
    intro q hq v hv w hw hval d hd hrun hcommitted
    rw [fate_rollback hended hrolled] at hcommitted
    split_ifs at hcommitted
    simp [hrun] at hcommitted
  | finish top commits =>
    simp only [State.act, ite_none_right_eq_some, Option.some.injEq] at hact
    obtain ⟨⟨hnone, hidle⟩, hs'⟩ := hact
    have hended : s'.ended = fun t => if t = top then some commits else s.ended t := by rw [← hs']
    have hrolled : s'.rolledBack = s.rolledBack := by rw [← hs']
    have hrunning : s.ended top = none := isNone_iff_eq_none.mp hnone
    refine h.moved (moved_finish hrolled hended hrunning) (by rw [← hs']) (by rw [← hs'])
      (by rw [← hs']) ?_
    intro q hq v hv w hw hval d hd hrun hcommitted
    rw [fate_finish hrolled hended] at hcommitted
    split at hcommitted
    · cases hcommitted
    · split at hcommitted
      · next htop =>
        -- the one that commits has deleted the group
        cases commits with
        | false => cases hcommitted
        | true =>
          refine hok rfl q hq v hv ⟨w, hw, hval, ?_⟩
          simp [mem_def.mp hd, htop, hrun]
      · simp [hrun] at hcommitted
  | pruneGroup i =>
    simp only [State.act, ite_none_right_eq_some, Option.some.injEq] at hact
    obtain ⟨hdead, rfl⟩ := hact
    exact h.pruneGroup hdead
  | probe top row =>
    simp only [State.act, ite_none_right_eq_some, Option.some.injEq] at hact
    obtain ⟨-, rfl⟩ := hact
    exact h.putProbe nofun
  | readGroups top =>
    simp only [State.act] at hact
    split at hact
    · next row names wasLive hlookup =>
      cases hact
      exact h.readGroups hobs (mem_probes hlookup) (hok _ hlookup)
    · cases hact
  | readDeletes top =>
    simp only [State.act] at hact
    split at hact
    · next row v names wasLive hlookup =>
      cases hact
      obtain ⟨hbuffered, hnamed⟩ := hok _ hlookup
      exact h.readDeletes hobs (mem_probes hlookup) hbuffered (hnamed v rfl)
    · cases hact

theorem inv_of_run {acts : List Action} (hok : AllSteps step Benign initial acts)
    (hrun : run step initial acts = some s) : Inv s ∧ Observed s := by
  refine run_invariant_of (P := fun s => Inv s ∧ Observed s) ?_ ⟨Inv.initial, nofun⟩ hok hrun
  intro s a s' h hok' hstep
  obtain ⟨t, hact, rfl⟩ := map_eq_some_iff.mp hstep
  exact ⟨(h.1.act h.2 hok' hact).observe, observed_observe t⟩

/-- A probe that answers that its row is present, with nobody to wait for, is right: since it
began the row has been live in the committed state or for the transaction itself. -/
theorem present_live_of_run {acts : List Action} (hok : AllSteps step Benign initial acts)
    (hrun : run step initial acts = some s) :
    ∀ a ∈ s.answers, a.present = true → a.names.isNone = true → a.wasLive = true :=
  (inv_of_run hok hrun).1.answers

/-- Row 1 is written and committed; another transaction deletes row 2 while a third probes
row 1, and commits. -/
def probeActs : List Action :=
  [.append ⟨1, 0⟩ 1, .append ⟨1, 0⟩ 2, .flush ⟨1, 0⟩ ⟨1, 1, 2⟩ 0 false, .finish 1 true,
    .mark ⟨2, 0⟩ 2, .probe 3 1, .flushMarks ⟨2, 0⟩ 1 [1] 0 false, .readGroups 3, .finish 2 true,
    .readDeletes 3]

theorem present_live_of_run_probeActs : ∃ s, run step initial probeActs = some s ∧ s.answers ≠ [] ∧
      ∀ a ∈ s.answers, a.present = true → a.names.isNone = true → a.wasLive = true := by
  have hsome : (run step initial probeActs).isSome = true := rfl
  obtain ⟨s, hs⟩ := isSome_iff_exists.mp hsome
  refine ⟨s, hs, ?_, present_live_of_run (by decide) hs⟩
  have hlen : (run step initial probeActs).map (fun s => s.answers.length) = some 1 := rfl
  intro hnil
  simp [hs, hnil] at hlen

/-- A row is deleted and the delete commits; then a probe of the row reads the row groups.  The
group is retired and that commits before the probe reads the delete vectors. -/
def retireActs : List Action :=
  [.append ⟨1, 0⟩ 1, .flush ⟨1, 0⟩ ⟨1, 1, 1⟩ 0 false, .finish 1 true,
    .mark ⟨2, 0⟩ 1, .flushMarks ⟨2, 0⟩ 1 [0] 0 false, .finish 2 true,
    .probe 3 1, .readGroups 3, .retire ⟨4, 0⟩ 1, .finish 4 true, .readDeletes 3]

/-- The row is present, nobody is named, and it has not been live. -/
theorem retireActs_present_not_live :
    ∃ s, run step initial retireActs = some s ∧ ∃ a ∈ s.answers, a.row = 1 ∧ a.present = true ∧
      a.names.isNone = true ∧ a.wasLive = false := by
  have hanswers : (run step initial retireActs).map (fun s => s.answers) =
      some [⟨1, true, .none, false⟩] := rfl
  obtain ⟨s, hs, hs'⟩ := map_eq_some_iff.mp hanswers
  exact ⟨s, hs, _, hs' ▸ mem_singleton_self _, rfl, rfl, rfl, rfl⟩

end PgColumnar.Unique
