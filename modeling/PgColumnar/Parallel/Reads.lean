import PgColumnar.Parallel.Scan

/-!
# What the others do to a scan

While a transaction scans it writes nothing more, so what its snapshot reads from the
catalogs can change only by what other transactions write and by pruning.  Neither does
change it, for an MVCC snapshot.

## Main definitions

* `Outside` — what others do to a scan.
* `Steady` — the steps in which every participant finds the leader's list.

## Main results

* `Outside.read_eq` — what a scan reads does not change.
-/

namespace PgColumnar.Parallel

open Mvcc List Function Nat
open Option (ite_none_right_eq_some map_eq_some_iff)

variable {α β : Type} {s s' : State α} {sc : Scan α} {base t x c i : ℕ}

/-! ## Command ids -/

/-- A stamp of the catalogs a scan reads. -/
def State.Stamped (s : State α) (x c : ℕ) : Prop :=
  (∃ v ∈ s.groups, v.Stamped x c) ∨ ∃ v ∈ s.masks, v.Stamped x c

/-- A copy of the scan's snapshot whose command id is past all that the transaction has
written. -/
def Fresh (s : State α) (sc : Scan α) (snapshot : ScanSnapshot) : Prop :=
  match sc.snapshot, snapshot with
  | .any, .any => True
  | .mvcc snap _, .mvcc snap' curcid =>
    snap' = snap ∧ ∀ x c, s.Stamped x c → s.own sc.top x = true → c < curcid
  | _, _ => False

variable {a b : ScanSnapshot} {tab : List (Version β)}

theorem Fresh.read_eq (ha : Fresh s sc a)
    (hb : Fresh s sc b) (htab : ∀ v ∈ tab, ∀ x c, v.Stamped x c → s.Stamped x c) :
    s.read sc.top a tab = s.read sc.top b tab := by
  unfold Fresh at ha hb
  cases hsc : sc.snapshot with
  | any =>
    rw [hsc] at ha hb
    cases a with
    | any =>
      cases b with
      | any => rfl
      | mvcc => exact hb.elim
    | mvcc => exact ha.elim
  | mvcc snap cur =>
    rw [hsc] at ha hb
    cases a with
    | any => exact ha.elim
    | mvcc snap₁ cur₁ =>
      cases b with
      | any => exact hb.elim
      | mvcc snap₂ cur₂ =>
        obtain ⟨rfl, ha⟩ := ha
        obtain ⟨rfl, hb⟩ := hb
        refine Version.read_congr fun v hv x c hs => ?_
        unfold State.seen
        split
        · next hown =>
          rw [decide_eq_true (ha x c (htab v hv x c hs) hown),
            decide_eq_true (hb x c (htab v hv x c hs) hown)]
        · rfl

theorem Fresh.groups_eq (ha : Fresh s sc a) (hb : Fresh s sc b) :
    s.read sc.top a s.groups = s.read sc.top b s.groups :=
  ha.read_eq hb fun v hv _ _ hs => .inl ⟨v, hv, hs⟩

theorem Fresh.masks_eq (ha : Fresh s sc a) (hb : Fresh s sc b) :
    s.read sc.top a s.masks = s.read sc.top b s.masks :=
  ha.read_eq hb fun v hv _ _ hs => .inr ⟨v, hv, hs⟩

/-! ## Flushing -/

/-- What a flush in subtransaction `x` writes: stamps of `x`, of a command that is not
over. -/
structure Flushed (s s' : State α) (x : ℕ) : Prop where
  clock : s'.clock = s.clock
  top : s'.top = s.top
  scan : s'.scan = s.scan
  other : ∀ u, u ≠ s.top x → s'.now u = s.now u
  now : s.now (s.top x) ≤ s'.now (s.top x)
  groups : Version.Edits (fun y c => y = x ∧ c ≤ s'.now (s.top x))
    (fun y => s.clock.status y = .aborted) (fun v => s.dead v = true) s.groups s'.groups
  masks : Version.Edits (fun y c => y = x ∧ c ≤ s'.now (s.top x))
    (fun y => s.clock.status y = .aborted) (fun v => s.dead v = true) s.masks s'.masks

theorem Flushed.refl (s : State α) (x : ℕ) : Flushed s s x :=
  ⟨rfl, rfl, rfl, fun _ _ => rfl, le_refl _, .refl _, .refl _⟩

theorem Flushed.trans {s₁ s₂ s₃ : State α} (h₁ : Flushed s₁ s₂ x) (h₂ : Flushed s₂ s₃ x) :
    Flushed s₁ s₃ x := by
  have hnow := h₂.now
  have hgroups := h₂.groups
  have hmasks := h₂.masks
  have hdead : ∀ {β : Type} (v : Version β), s₂.dead v = s₁.dead v := by
    intro β v
    unfold State.dead
    rw [h₁.clock]
  simp only [h₁.top, h₁.clock, hdead] at hnow hgroups hmasks
  refine ⟨h₂.clock.trans h₁.clock, h₂.top.trans h₁.top, h₂.scan.trans h₁.scan, ?_,
    h₁.now.trans hnow, ?_, ?_⟩
  · intro u hu
    rw [h₂.other u (by rwa [h₁.top]), h₁.other u hu]
  · exact .trans (h₁.groups.mono fun y c h => ⟨h.1, h.2.trans hnow⟩) hgroups
  · exact .trans (h₁.masks.mono fun y c h => ⟨h.1, h.2.trans hnow⟩) hmasks

theorem flushed_writeGroup (s : State α) (x : ℕ) (g : RowGroup α) :
    Flushed s (s.writeGroup x g) x :=
  ⟨rfl, rfl, rfl, fun _ _ => rfl, le_refl _, .insert ⟨rfl, le_refl _⟩, .refl _⟩

theorem flushed_writeGroups (s : State α) (x : ℕ) (gs : List (RowGroup α)) :
    Flushed s (gs.foldl (fun s g => s.writeGroup x g) s) x := by
  induction gs generalizing s with
  | nil => exact Flushed.refl s x
  | cons g gs ih => exact (flushed_writeGroup s x g).trans (ih _)

theorem flushed_writeMark {parallel : Bool} {m : Mask} (h : s.writeMark x parallel m = some s') :
    Flushed s s' x ∧ (parallel = true → s'.now = s.now) := by
  simp only [State.writeMark] at h
  split at h
  · cases h
    exact ⟨⟨rfl, rfl, rfl, fun _ _ => rfl, le_refl _, .refl _, .insert ⟨rfl, le_refl _⟩⟩,
      fun _ => rfl⟩
  · split at h
    · cases h
    · next v hv =>
      obtain ⟨hcond, h⟩ := ite_none_right_eq_some.mp h
      cases h
      obtain ⟨hold, hpar⟩ := hcond
      -- the command is ended first if this version is of the command
      generalize hagain : (s.own (s.top x) v.xmin && decide (s.now (s.top x) ≤ v.cmin)) = again
        at hpar ⊢
      have hle : s.now (s.top x) ≤ if again = true then s.now (s.top x) + 1 else s.now
        (s.top x) := by
        split
        · exact le_succ _
        · exact le_refl _
      constructor
      · refine ⟨rfl, rfl, rfl, fun u hu => update_of_ne hu _ _, ?_, .refl _, ?_⟩
        · simpa using hle
        · simp only [update_self]
          refine .trans (.delete hv ⟨rfl, le_refl _⟩ ?_) (.insert ⟨rfl, le_refl _⟩)
          intro d hd
          have hall := hold
          unfold State.unclaimed at hall
          rw [hd] at hall
          simpa using hall
      · intro hp
        have hno : again = false := by
          cases again with
          | false => rfl
          | true => exact absurd ⟨rfl, hp⟩ hpar
        simp [hno]

theorem flushed_writeMarks {parallel : Bool} {ms : List Mask}
    (h : s.writeMarks x parallel ms = some s') :
    Flushed s s' x ∧ (parallel = true → s'.now = s.now) := by
  induction ms generalizing s with
  | nil =>
    cases h
    exact ⟨Flushed.refl _ x, fun _ => rfl⟩
  | cons m ms ih =>
    obtain ⟨s₁, hm, hms⟩ := Option.bind_eq_some_iff.mp h
    obtain ⟨hf₁, hn₁⟩ := flushed_writeMark hm
    obtain ⟨hf₂, hn₂⟩ := ih hms
    exact ⟨hf₁.trans hf₂, fun hp => (hn₂ hp).trans (hn₁ hp)⟩

theorem now_writeGroups (s : State α) (x : ℕ) (gs : List (RowGroup α)) :
    (gs.foldl (fun s g => s.writeGroup x g) s).now = s.now := by
  induction gs generalizing s with
  | nil => rfl
  | cons g gs ih => exact ih _

theorem flushed_flush {parallel : Bool} (h : s.flush x parallel = some s') :
    Flushed s s' x ∧ (parallel = true → s'.now = s.now) := by
  unfold State.flush at h
  obtain ⟨hm, hn⟩ := flushed_writeMarks h
  have hg := flushed_writeGroups { s with buffered := update s.buffered (s.top x) [] } x
    (s.buffered (s.top x))
  refine ⟨?_, ?_⟩
  · have hmid : Flushed s _ x := ⟨hg.clock, hg.top, hg.scan, hg.other, hg.now, hg.groups, hg.masks⟩
    exact hmid.trans ⟨hm.clock, hm.top, hm.scan, hm.other, hm.now, hm.groups, hm.masks⟩
  · intro hp
    rw [hn hp]
    exact now_writeGroups _ _ _

/-! ## Steps outside the scan -/

/-- The step is not one of the scan: other transactions may have written, under stamps that
are not the scanning transaction's, and the catalogs may have been pruned. -/
structure Outside (s s' : State α) : Prop where
  next : Clock.Next s.clock s'.clock
  scan : s'.scan = s.scan
  top : ∀ x, s.clock.status x ≠ .unused → s'.top x = s.top x
  now : ∀ t, s.now t ≤ s'.now t
  groups : Version.Edits (fun x c => s.working x = true ∧ c ≤ s'.now (s.top x))
    (fun y => s.clock.status y = .aborted) (fun v => s.dead v = true) s.groups s'.groups
  masks : Version.Edits (fun x c => s.working x = true ∧ c ≤ s'.now (s.top x))
    (fun y => s.clock.status y = .aborted) (fun v => s.dead v = true) s.masks s'.masks
  dsm : ∀ sc ∈ s.scan, sc.dsm.isSome = true → s'.now sc.top = s.now sc.top
  running : ∀ sc ∈ s.scan, ∀ x, s.top x = sc.top → s.clock.status x = .running →
    s'.clock.status x = .running
  held : ∀ sc ∈ s.scan, ∀ snap cur, sc.snapshot = .mvcc snap cur → snap ∈ s.clock.snapshots →
    snap ∈ s'.clock.snapshots
  vals : ∀ sc ∈ s.scan, sc.snapshot = .any → s'.groups.map (·.val) = s.groups.map (·.val) ∧
    s'.masks.map (·.val) = s.masks.map (·.val)

/-- The clock does not move, nor does the scanning transaction. -/
theorem Outside.of_edits (hclock : s'.clock = s.clock) (htop : s'.top = s.top)
    (hscan : s'.scan = s.scan) (hnow : ∀ t, s.now t ≤ s'.now t)
    (hdsm : ∀ sc ∈ s.scan, sc.dsm.isSome = true → s'.now sc.top = s.now sc.top)
    (hgroups : Version.Edits (fun x c => s.working x = true ∧ c ≤ s'.now (s.top x))
      (fun y => s.clock.status y = .aborted) (fun v => s.dead v = true) s.groups s'.groups)
    (hmasks : Version.Edits (fun x c => s.working x = true ∧ c ≤ s'.now (s.top x))
      (fun y => s.clock.status y = .aborted) (fun v => s.dead v = true) s.masks s'.masks)
    (hvals : ∀ sc ∈ s.scan, sc.snapshot = .any → s'.groups.map (·.val) = s.groups.map (·.val) ∧
      s'.masks.map (·.val) = s.masks.map (·.val)) :
    Outside s s' :=
  { next := hclock ▸ .refl, scan := hscan, top := fun x _ => by rw [htop], now := hnow,
    groups := hgroups, masks := hmasks, dsm := hdsm,
    running := fun _ _ _ _ hx => by rwa [hclock], held := fun _ _ _ _ _ hs => by rwa [hclock],
    vals := hvals }

/-- Only the clock moves, and the ids it hands out. -/
theorem Outside.of_clock {clock : Clock} {top : ℕ → ℕ} (hnext : Clock.Next s.clock clock)
    (htop : ∀ x, s.clock.status x ≠ .unused → top x = s.top x)
    (hrunning : ∀ sc ∈ s.scan, ∀ x, s.top x = sc.top → s.clock.status x = .running →
      clock.status x = .running)
    (hheld : ∀ sc ∈ s.scan, ∀ snap cur, sc.snapshot = .mvcc snap cur → snap ∈ s.clock.snapshots →
      snap ∈ clock.snapshots) : Outside s { s with clock := clock, top := top } :=
  { next := hnext, scan := rfl, top := htop, now := fun _ => le_refl _, groups := .refl _,
    masks := .refl _, dsm := fun _ _ _ => rfl, running := hrunning, held := hheld,
    vals := fun _ _ _ => ⟨rfl, rfl⟩ }

theorem working_iff : s.working x = true ↔
    s.clock.status x = .running ∧ ∀ sc ∈ s.scan, sc.top ≠ s.top x := by
  unfold State.working
  cases s.scan with
  | none | some sc => simp

/-- A flush by a transaction that is not scanning. -/
theorem Outside.of_flushed (hx : s.working x = true) (h : Flushed s s' x)
    (hany : ∀ sc ∈ s.scan, sc.snapshot ≠ .any) : Outside s s' := by
  have hw := working_iff.mp hx
  refine .of_edits h.clock h.top h.scan ?_ ?_ (h.groups.mono ?_) (h.masks.mono ?_)
    fun sc hsc heq => absurd heq (hany sc hsc)
  · intro t
    by_cases ht : t = s.top x
    · rw [ht]
      exact h.now
    · rw [h.other t ht]
  · exact fun sc hsc _ => h.other _ (hw.2 sc hsc)
  · rintro y c ⟨rfl, hc⟩
    exact ⟨hx, hc⟩
  · rintro y c ⟨rfl, hc⟩
    exact ⟨hx, hc⟩

/-- The ids `xs` end, none of them the scanning transaction's. -/
theorem Outside.of_finish {xs : List ℕ} {st : Status} (hst : st = .committed ∨ st = .aborted)
    (hxs : ∀ x ∈ xs, s.working x = true) :
    Outside s { s with clock := s.clock.finish xs st } := by
  refine .of_clock (.finish (fun x hx => (working_iff.mp (hxs x hx)).1) hst) (fun _ _ => rfl) ?_
    fun _ _ _ _ _ hs => hs
  intro sc hsc x htop hrun
  rw [Clock.finish_status_of_not_mem]
  · exact hrun
  · intro hx
    exact (working_iff.mp (hxs x hx)).2 sc hsc htop.symm

variable {tab' : List (Version β)}

theorem deleteVersion_vals (h : s.deleteVersion x i tab = some tab') :
    tab'.map (·.val) = tab.map (·.val) := by
  unfold State.deleteVersion at h
  split at h
  · cases h
  · next v hv =>
    split at h
    · cases h
      obtain ⟨hi, rfl⟩ := List.getElem?_eq_some_iff.mp hv
      have hlen : i < (tab.map (·.val)).length := by rwa [length_map]
      have hself := set_getElem_self hlen
      rw [getElem_map] at hself
      rw [map_set]
      exact hself
    · cases h

theorem deleteVersion_edits {P : ℕ → ℕ → Prop} (hP : P x (s.now (s.top x)))
    (h : s.deleteVersion x i tab = some tab') :
    Version.Edits P (fun y => s.clock.status y = .aborted) (fun v => s.dead v = true) tab tab' := by
  unfold State.deleteVersion at h
  split at h
  · cases h
  · next v hv =>
    obtain ⟨hcond, h⟩ := ite_none_right_eq_some.mp h
    cases h
    refine .delete hv hP fun d hd => ?_
    have hall := hcond.2
    unfold State.unclaimed at hall
    rw [hd] at hall
    simpa using hall

theorem pruneVersion_edits {P : ℕ → ℕ → Prop} (h : s.pruneVersion i tab = some tab') :
    Version.Edits P (fun y => s.clock.status y = .aborted) (fun v => s.dead v = true) tab tab' := by
  unfold State.pruneVersion at h
  split at h
  · cases h
  · next v hv =>
    obtain ⟨hdead, h⟩ := ite_none_right_eq_some.mp h
    cases h
    exact .prune hv hdead

/-- What the claim needs of a step.  A worker that starts finds the projection that the
leader opened; under `SnapshotAny`, which sees every version there is, none is added or
pruned; and no lazy vacuum is left out of a snapshot that is taken. -/
def Steady (s : State α) : Action α → Prop
  | .startWorker => ∀ sc ∈ s.scan, ∀ now ∈ sc.dsm,
    s.findProjection sc.top now sc.projName = sc.projStorage
  | .flush _ | .pruneGroup _ | .pruneMask _ => ∀ sc ∈ s.scan, sc.snapshot ≠ .any
  | .takeSnapshot => s.clock.Lists s.lazy
  | _ => True

theorem Outside.refl_of {buffered : ℕ → List (RowGroup α)} {marks : ℕ → List Mask}
    {projections : List (Version Projection)} : Outside s
      { s with buffered := buffered, marks := marks, projections := projections } :=
  .of_edits rfl rfl rfl (fun _ => le_refl _) (fun _ _ _ => rfl) (.refl _) (.refl _)
    fun _ _ _ => ⟨rfl, rfl⟩

/-- What a step can do to a scan that is not a step of the scan. -/
theorem outside_step {canMatch : RowGroup α → Bool} {a : Action α} (hc : s.clock.Wf)
    (hok : Steady s a) (h : step base canMatch s a = some s') :
    Outside s s' ∨ stepScan base canMatch s a = some s' := by
  have hfresh : ∀ x, s.clock.status x ≠ .unused → x ≠ s.clock.next := by
    rintro x hx rfl
    exact hx (hc.unused _ (le_refl _))
  -- a new id is in no stamp and in no snapshot
  have hbegin : ∀ t, Outside s
      { s with clock := s.clock.begin, top := update s.top s.clock.next t } := by
    intro t
    refine .of_clock .begin (fun x hx => update_of_ne (hfresh x hx) _ _) ?_ fun _ _ _ _ _ hs => hs
    intro sc _ x _ hrun
    rw [Clock.begin_status_of_ne (hfresh x (by rw [hrun]; decide))]
    exact hrun
  cases a with
  | begin =>
    cases h
    exact .inl (hbegin _)
  | beginSub t =>
    simp only [step] at h
    split at h
    · cases h
      exact .inl (hbegin t)
    · cases h
  | commit t =>
    obtain ⟨hcond, h⟩ := ite_none_right_eq_some.mp h
    cases h
    refine .inl (.of_finish (.inl rfl) fun x hx => ?_)
    obtain ⟨hx, htop⟩ := mem_filter.mp hx
    rw [Clock.mem_running hc] at hx
    have htop := of_decide_eq_true htop
    refine working_iff.mpr ⟨hx, fun sc hsc => ?_⟩
    have hne := (working_iff.mp hcond.1).2 sc hsc
    rwa [hcond.2.1, ← htop] at hne
  | abort xs =>
    obtain ⟨hcond, h⟩ := ite_none_right_eq_some.mp h
    cases h
    exact .inl (.of_finish (.inr rfl) hcond.1)
  | takeSnapshot =>
    cases h
    rw [Clock.takeSnapshotBut_eq hok]
    exact .inl (.of_clock .takeSnapshot (fun _ _ => rfl) (fun _ _ _ _ hx => hx)
      fun _ _ _ _ _ hs => mem_append_left _ hs)
  | dropSnapshot i =>
    obtain ⟨hcond, h⟩ := ite_none_right_eq_some.mp h
    cases h
    refine .inl (.of_clock (.dropSnapshot i) (fun _ _ => rfl) (fun _ _ _ _ hx => hx) ?_)
    intro sc hsc snap cur heq _
    rw [hsc] at hcond
    show snap ∈ s.clock.snapshots.eraseIdx i
    simpa [heq] using hcond
  | commandEnd t =>
    obtain ⟨hcond, h⟩ := ite_none_right_eq_some.mp h
    cases h
    refine .inl (.of_edits rfl rfl rfl ?_ ?_ (.refl _) (.refl _) fun _ _ _ => ⟨rfl, rfl⟩)
    · intro u
      by_cases hu : u = t
      · simp [hu]
      · simp [update_of_ne hu]
    · intro sc hsc hdsm
      have hall := hcond.2.2
      rw [hsc] at hall
      have hne : sc.top ≠ t := by
        intro heq
        simp [heq, Option.isNone_iff_eq_none] at hall
        simp [hall] at hdsm
      exact update_of_ne hne _ _
  | buffer x g | bufferMark x m | addProjection x p =>
    simp only [step] at h
    split at h
    · cases h
      exact .inl .refl_of
    · cases h
  | flush x =>
    simp only [step] at h
    split_ifs at h with hx
    exact .inl (.of_flushed hx (flushed_flush h).1 hok)
  | retire x i =>
    obtain ⟨hx, h⟩ := ite_none_right_eq_some.mp h
    obtain ⟨groups, hg, rfl⟩ := map_eq_some_iff.mp h
    refine .inl (.of_edits rfl rfl rfl (fun _ => le_refl _) (fun _ _ _ => rfl)
      (deleteVersion_edits ⟨hx, le_refl _⟩ hg) (.refl _) fun _ _ _ => ?_)
    exact ⟨deleteVersion_vals hg, rfl⟩
  | hint k i =>
    obtain ⟨snap, hsnap, h⟩ := Option.bind_eq_some_iff.mp h
    obtain ⟨v, _, h⟩ := Option.bind_eq_some_iff.mp h
    obtain ⟨⟨_, d, _, hd⟩, _⟩ := ite_none_right_eq_some.mp h
    -- a snapshot that lists every running id has not missed the delete
    exact absurd hd (hc.not_missed (mem_of_getElem? hsnap))
  | dropProjection x i =>
    obtain ⟨_, h⟩ := ite_none_right_eq_some.mp h
    obtain ⟨projections, _, rfl⟩ := map_eq_some_iff.mp h
    exact .inl .refl_of
  | pruneGroup i =>
    obtain ⟨groups, hg, rfl⟩ := map_eq_some_iff.mp h
    -- only a scan under `SnapshotAny` would see the version go
    exact .inl (.of_edits rfl rfl rfl (fun _ => le_refl _) (fun _ _ _ => rfl)
      (pruneVersion_edits hg) (.refl _) fun sc hsc heq => absurd heq (hok sc hsc))
  | pruneMask i =>
    obtain ⟨masks, hg, rfl⟩ := map_eq_some_iff.mp h
    exact .inl (.of_edits rfl rfl rfl (fun _ => le_refl _) (fun _ _ _ => rfl)
      (.refl _) (pruneVersion_edits hg) fun sc hsc heq => absurd heq (hok sc hsc))
  | pruneProjection i =>
    obtain ⟨projections, _, rfl⟩ := map_eq_some_iff.mp h
    exact .inl .refl_of
  | beginScan x kind name snapshot | initializeDSM x | openLeader | startWorker | readStart p
  | nextGroupIndex p | loadGroup p | rescan | endScan =>
    exact .inr h

/-! ## What the scan reads -/

/-- The stamps of the catalogs are of used ids, and of commands that have begun. -/
structure Sane (s : State α) : Prop where
  clock : s.clock.Wf
  stamps : ∀ x c, s.Stamped x c → s.clock.status x ≠ .unused ∧
    (s.clock.status x = .running → c ≤ s.now (s.top x))

theorem own_iff : s.own t x = true ↔ s.clock.status x = .running ∧ s.top x = t := by
  simp [State.own]

theorem own_of_not_running (h : s.clock.status x ≠ .running) : s.own t x = false := by
  simp [State.own, h]

theorem seen_aborted {snap : Snapshot} {cur : ℕ} (h : s.clock.status x = .aborted) :
    s.seen t snap cur x c = false := by
  have hne : s.clock.status x ≠ .running := by
    rw [h]
    nofun
  simp [State.seen, own_of_not_running hne, Clock.sees, h]

theorem Sane.init (lazy : ℕ → Bool) : Sane (State.init lazy : State α) :=
  ⟨Clock.Wf.init, by rintro x c (⟨v, hv, _⟩ | ⟨v, hv, _⟩) <;> cases hv⟩

theorem Outside.stamped (ho : Outside s s') (h : s'.Stamped x c) :
    s.working x = true ∧ c ≤ s'.now (s.top x) ∨ s.Stamped x c := by
  rcases h with h | h
  · rcases ho.groups.stamped h with h | h
    · exact .inl h
    · exact .inr (.inl h)
  · rcases ho.masks.stamped h with h | h
    · exact .inl h
    · exact .inr (.inr h)

theorem Outside.used (ho : Outside s s') (hs : Sane s) (h : s'.Stamped x c) :
    s.clock.status x ≠ .unused := by
  rcases ho.stamped h with ⟨hx, _⟩ | h
  · rw [(working_iff.mp hx).1]
    nofun
  · exact (hs.stamps x c h).1

theorem Sane.outside (hs : Sane s) (ho : Outside s s') : Sane s' := by
  refine ⟨hs.clock.step ho.next, fun x c h => ?_⟩
  have hused := ho.used hs h
  refine ⟨ho.next.used hused, fun hrun => ?_⟩
  have hrun : s.clock.status x = .running := by
    rcases ho.next.running hrun with hrun | rfl
    · exact hrun
    · exact absurd (hs.clock.unused _ (le_refl _)) hused
  rw [ho.top x hused]
  rcases ho.stamped h with ⟨_, hc⟩ | h
  · exact hc
  · exact ((hs.stamps x c h).2 hrun).trans (ho.now _)

/-- A used id is the scanning transaction's own after the step if it was before. -/
theorem Outside.own_eq (ho : Outside s s') (hs : Sane s) (hsc : s.scan = some sc)
    (hused : s.clock.status x ≠ .unused) : s'.own sc.top x = s.own sc.top x := by
  have htop := ho.top x hused
  rw [Bool.eq_iff_iff, own_iff, own_iff, htop]
  constructor
  · rintro ⟨hrun, heq⟩
    refine ⟨?_, heq⟩
    rcases ho.next.running hrun with hrun | rfl
    · exact hrun
    · exact absurd (hs.clock.unused _ (le_refl _)) hused
  · rintro ⟨hrun, heq⟩
    exact ⟨ho.running sc hsc x heq hrun, heq⟩

theorem Fresh.outside (h : Fresh s sc a) (hs : Sane s) (ho : Outside s s')
    (hsc : s.scan = some sc) : Fresh s' sc a := by
  unfold Fresh at h ⊢
  cases hsn : sc.snapshot with
  | any =>
    rw [hsn] at h
    cases a with
    | any => trivial
    | mvcc => exact h.elim
  | mvcc snap cur =>
    rw [hsn] at h
    cases a with
    | any => exact h.elim
    | mvcc snap' cur' =>
      refine ⟨h.1, fun x c hst hown => ?_⟩
      rw [ho.own_eq hs hsc (ho.used hs hst)] at hown
      rcases ho.stamped hst with ⟨hx, _⟩ | hst
      · exact absurd (own_iff.mp hown).2.symm ((working_iff.mp hx).2 sc hsc)
      · exact h.2 x c hst hown

/-- A snapshot that is copied now is past all that the transaction has written. -/
theorem Sane.fresh (hs : Sane s) (sc : Scan α) {now : ℕ} (hnow : s.now sc.top ≤ now) :
    Fresh s sc (catalogSnapshot now sc.snapshot) := by
  unfold Fresh catalogSnapshot
  cases sc.snapshot with
  | any => trivial
  | mvcc snap cur =>
    refine ⟨rfl, fun x c hst hown => ?_⟩
    obtain ⟨hrun, htop⟩ := own_iff.mp hown
    have hle := (hs.stamps x c hst).2 hrun
    rw [htop] at hle
    split <;> omega

/-- **What the scan reads does not change** by a step that is not one of the scan. -/
theorem Outside.read_eq (ho : Outside s s')
    (hs : Sane s) (hsc : s.scan = some sc) (ha : Fresh s sc a)
    (hheld : ∀ snap cur, sc.snapshot = .mvcc snap cur → snap ∈ s.clock.snapshots)
    (hedits : Version.Edits (fun x c => s.working x = true ∧ c ≤ s'.now (s.top x))
      (fun y => s.clock.status y = .aborted) (fun v => s.dead v = true) tab tab')
    (hvals : sc.snapshot = .any → tab'.map (·.val) = tab.map (·.val))
    (hstamps : ∀ x c, (∃ v ∈ tab, v.Stamped x c) → s.clock.status x ≠ .unused) :
    s'.read sc.top a tab' = s.read sc.top a tab := by
  unfold Fresh at ha
  cases hsn : sc.snapshot with
  | any =>
    rw [hsn] at ha
    cases a with
    | any => exact hvals hsn
    | mvcc => exact ha.elim
  | mvcc snap₀ cur₀ =>
    rw [hsn] at ha
    cases a with
    | any => exact ha.elim
    | mvcc snap cur =>
      obtain ⟨rfl, _⟩ := ha
      have hmem := hheld _ _ hsn
      -- first the observers agree, then the edits are unseen by the old one
      have hcongr : Version.read (s'.seen sc.top snap cur) tab' =
          Version.read (s.seen sc.top snap cur) tab' := by
        refine Version.read_congr fun v hv x c hst => ?_
        have hused : s.clock.status x ≠ .unused := by
          rcases hedits.stamped ⟨v, hv, hst⟩ with ⟨hx, _⟩ | hold
          · rw [(working_iff.mp hx).1]
            nofun
          · exact hstamps x c hold
        have hsees := Clock.sees_next (x := x) hs.clock ho.next hmem
        simp only [State.seen, ho.own_eq hs hsc hused, hsees]
      refine hcongr.trans (hedits.read ?_ ?_ ?_)
      · rintro x c ⟨hx, _⟩
        obtain ⟨hrun, hne⟩ := working_iff.mp hx
        have hown : s.own sc.top x = false := by
          rw [Bool.eq_false_iff]
          exact fun h => hne sc hsc (own_iff.mp h).2.symm
        simp [State.seen, hown, Clock.sees, hrun]
      · exact fun x c hx => seen_aborted hx
      · intro v hv
        unfold State.dead at hv
        rcases Bool.or_eq_true_iff.mp hv with hv | hv
        · exact Version.not_visible_of_xmin (seen_aborted (of_decide_eq_true hv))
        · cases hxm : v.xmax with
          | none =>
            rw [hxm] at hv
            cases hv
          | some d =>
            rw [hxm, Option.any_some, Bool.and_eq_true, decide_eq_true_eq, all_eq_true] at hv
            refine Version.not_visible_of_xmax hxm ?_
            have hne : s.clock.status d.1 ≠ .running := by
              rw [hv.1]
              nofun
            unfold State.seen
            rw [own_of_not_running hne]
            exact hv.2 snap hmem

end PgColumnar.Parallel
