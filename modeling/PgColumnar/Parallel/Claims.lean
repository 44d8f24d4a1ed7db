import PgColumnar.Parallel.Reads
import PgColumnar.Lib.Run

/-!
# Every row group is claimed once

The participants of a parallel scan build the same list of row groups, and together they
claim every index of it once.  So the rows they return are those of the serial scan.

This needs two things of the run.  A worker looks up the projection of the plan in the
catalog as it is when the worker starts, and `drop_projection` does not wait for readers: if
the projection is gone, the worker reads the relation itself, by the indexes of the
projection's list.  And under `SnapshotAny`, which a parallel index build is given, a list
has every version that the catalog still holds.

## Main definitions

* `PartInv`, `ScanInv` — what a participant has claimed and returned.

## Main results

* `Inv.step` — every step keeps the invariant.
* `scanOk_run` — the participants return what the serial scan returns.
-/

namespace PgColumnar.Parallel

open Mvcc List Option Nat

variable {α : Type} {s s' : State α} {sc sc' : Scan α} {p p' : Participant α} {base t x c i : ℕ}
  {canMatch : RowGroup α → Bool}

/-! ## Claims and rows -/

/-- The rows of the group at an index of the list. -/
def rowsAt (canMatch : RowGroup α → Bool) (rows : RowGroup α → List (ℕ × α))
    (groups : List (RowGroup α)) (i : ℕ) : List (ℕ × α) :=
  (groups[i]?.toList.filter canMatch).flatMap rows

theorem flatMap_rowsAt (canMatch : RowGroup α → Bool) (rows : RowGroup α → List (ℕ × α))
    (groups : List (RowGroup α)) {n : ℕ} (hn : groups.length ≤ n) :
    (List.range n).flatMap (rowsAt canMatch rows groups) =
      (groups.filter canMatch).flatMap rows := by
  induction groups generalizing n with
  | nil =>
    refine flatMap_eq_nil_iff.mpr fun i _ => ?_
    simp [rowsAt]
  | cons g groups ih =>
    obtain ⟨m, rfl⟩ := exists_eq_add_one_of_ne_zero (n := n) (by rintro rfl; cases hn)
    rw [range_succ_eq_map, flatMap_cons, flatMap_map]
    have hrest := ih (n := m) (le_of_succ_le_succ hn)
    have hhead : rowsAt canMatch rows (g :: groups) 0 = ([g].filter canMatch).flatMap rows := rfl
    have htail : ∀ i, rowsAt canMatch rows (g :: groups) (i + 1) = rowsAt canMatch rows groups i :=
      fun _ => rfl
    simp only [htail, hrest, hhead, succ_eq_add_one]
    rw [← flatMap_append, ← filter_append]
    rfl

/-- The rows of a group, as the serial scan returns them. -/
def State.serialGroupRows (s : State α) (base : ℕ) (sc : Scan α) (g : RowGroup α) : List (ℕ × α) :=
  let snapshot := catalogSnapshot (s.now sc.top) sc.snapshot
  groupRows (s.read sc.top snapshot s.masks) (s.livenessCache base sc.top sc.projStorage snapshot) g

/-! ## The invariant -/

/-- A participant reads what the serial scan reads, and has returned the rows of its claims
in their order. -/
structure PartInv (base : ℕ) (canMatch : RowGroup α → Bool) (s : State α) (sc : Scan α)
    (p : Participant α) : Prop where
  fresh : Fresh s sc p.metaSnapshot
  proj : p.projStorage = sc.projStorage
  cache : p.livenessCache = s.livenessCache base sc.top sc.projStorage p.metaSnapshot
  list : ∀ l ∈ p.rowGroupList, l = s.serialList base sc
  rows : p.produced ++ p.loading.toList.flatMap (s.serialGroupRows base sc) =
    p.claimed.flatMap (rowsAt canMatch (s.serialGroupRows base sc) (s.serialList base sc))
  exhausted : p.exhausted = true → ∃ i ∈ p.claimed, (s.serialList base sc).length ≤ i
  idle : p.rowGroupList = none → p.claimed = []

structure ScanInv (base : ℕ) (canMatch : RowGroup α → Bool) (s : State α) (sc : Scan α) : Prop where
  held : ∀ snap cur, sc.snapshot = .mvcc snap cur → snap ∈ s.clock.snapshots
  dsm : ∀ now ∈ sc.dsm, now = s.now sc.top
  parts : ∀ p ∈ sc.participants, PartInv base canMatch s sc p
  claims : (sc.participants.flatMap (·.claimed)).Perm (List.range sc.parallelCounter)
  unopened : sc.dsm = none → sc.kind ≠ .custom → sc.participants = []
  plain : sc.kind ≠ .custom → sc.projStorage = none
  led : sc.kind = .custom → sc.leader.isSome = true

structure Inv (base : ℕ) (canMatch : RowGroup α → Bool) (s : State α) : Prop where
  sane : Sane s
  scan : ∀ sc ∈ s.scan, ScanInv base canMatch s sc

theorem Inv.init (lazy : ℕ → Bool) : Inv base canMatch (State.init lazy : State α) :=
  ⟨Sane.init lazy, by simp [State.init]⟩

variable {projStorage : Option ℕ}

theorem Fresh.cache_eq {a b : ScanSnapshot} (ha : Fresh s sc a) (hb : Fresh s sc b) :
    s.livenessCache base sc.top projStorage a =
      s.livenessCache base sc.top projStorage b := by
  unfold State.livenessCache
  rw [ha.groups_eq hb, ha.masks_eq hb]

theorem Fresh.list_eq {a b : ScanSnapshot} (ha : Fresh s sc a) (hb : Fresh s sc b) :
    s.groupList base sc.top projStorage a =
      s.groupList base sc.top projStorage b := by
  unfold State.groupList
  rw [ha.groups_eq hb]

theorem Sane.serial (hs : Sane s) (sc : Scan α) :
    Fresh s sc (catalogSnapshot (s.now sc.top) sc.snapshot) :=
  hs.fresh sc (le_refl _)

theorem PartInv.serialGroupRows (h : PartInv base canMatch s sc p) (hs : Sane s) :
    groupRows (s.read sc.top p.metaSnapshot s.masks) p.livenessCache =
      s.serialGroupRows base sc := by
  funext g
  unfold State.serialGroupRows
  rw [h.cache, h.fresh.masks_eq (hs.serial sc), h.fresh.cache_eq (hs.serial sc)]

/-! ## Steps outside the scan -/

section Outside

variable (ho : Outside s s') (hs : Sane s) (hsc : s.scan = some sc)
  (hheld : ∀ snap cur, sc.snapshot = .mvcc snap cur → snap ∈ s.clock.snapshots)
include ho hs hsc hheld

theorem Outside.groups_eq {a : ScanSnapshot} (ha : Fresh s sc a) :
    s'.read sc.top a s'.groups = s.read sc.top a s.groups :=
  ho.read_eq hs hsc ha hheld ho.groups (fun h => (ho.vals sc hsc h).1)
    fun x c h => (hs.stamps x c (.inl h)).1

theorem Outside.masks_eq {a : ScanSnapshot} (ha : Fresh s sc a) :
    s'.read sc.top a s'.masks = s.read sc.top a s.masks :=
  ho.read_eq hs hsc ha hheld ho.masks (fun h => (ho.vals sc hsc h).2)
    fun x c h => (hs.stamps x c (.inr h)).1

theorem Outside.cache_eq {a : ScanSnapshot} (ha : Fresh s sc a) :
    s'.livenessCache base sc.top sc.projStorage a =
      s.livenessCache base sc.top sc.projStorage a := by
  unfold State.livenessCache
  rw [ho.groups_eq hs hsc hheld ha, ho.masks_eq hs hsc hheld ha]

/-- The serial scan that would start after the step returns what it would have before. -/
theorem Outside.serialList_eq (base : ℕ) : s'.serialList base sc = s.serialList base sc := by
  have hserial := (hs.serial sc).outside hs ho hsc
  unfold State.serialList
  rw [((hs.outside ho).serial sc).list_eq hserial]
  unfold State.groupList
  rw [ho.groups_eq hs hsc hheld (hs.serial sc)]

theorem Outside.serialGroupRows_eq (base : ℕ) :
    s'.serialGroupRows base sc = s.serialGroupRows base sc := by
  have hserial := (hs.serial sc).outside hs ho hsc
  have hserial' := (hs.outside ho).serial sc
  funext g
  unfold State.serialGroupRows
  dsimp only
  rw [hserial'.masks_eq hserial, hserial'.cache_eq hserial, ho.masks_eq hs hsc hheld (hs.serial sc),
    ho.cache_eq hs hsc hheld (hs.serial sc)]

theorem PartInv.outside (h : PartInv base canMatch s sc p) : PartInv base canMatch s' sc p := by
  have hlist := ho.serialList_eq hs hsc hheld base
  have hrows := ho.serialGroupRows_eq hs hsc hheld base
  refine ⟨h.fresh.outside hs ho hsc, h.proj, ?_, ?_, ?_, ?_, h.idle⟩
  · rw [ho.cache_eq hs hsc hheld h.fresh]
    exact h.cache
  · rw [hlist]
    exact h.list
  · rw [hlist, hrows]
    exact h.rows
  · rw [hlist]
    exact h.exhausted

end Outside

theorem Inv.outside (h : Inv base canMatch s) (ho : Outside s s') : Inv base canMatch s' := by
  refine ⟨h.sane.outside ho, fun sc hsc => ?_⟩
  rw [ho.scan] at hsc
  have hi := h.scan sc hsc
  refine ⟨fun snap cur heq => ho.held sc hsc snap cur heq (hi.held snap cur heq), ?_, ?_,
    hi.claims, hi.unopened, hi.plain, hi.led⟩
  · intro now hnow
    rw [ho.dsm sc hsc (isSome_iff_exists.mpr ⟨now, hnow⟩)]
    exact hi.dsm now hnow
  · intro p hp
    exact (hi.parts p hp).outside ho h.sane hsc hi.held

/-! ## Steps of the scan -/

theorem Sane.flushed (hs : Sane s) (hf : Flushed s s' x) (hx : s.clock.status x = .running) :
    Sane s' := by
  refine ⟨hf.clock ▸ hs.clock, fun y c h => ?_⟩
  have hold : ∀ {y c}, s.Stamped y c → s'.clock.status y ≠ .unused ∧
      (s'.clock.status y = .running → c ≤ s'.now (s'.top y)) := by
    intro y c hy
    rw [hf.clock, hf.top]
    obtain ⟨hused, hle⟩ := hs.stamps y c hy
    refine ⟨hused, fun hrun => (hle hrun).trans ?_⟩
    by_cases htop : s.top y = s.top x
    · rw [htop]
      exact hf.now
    · rw [hf.other _ htop]
  have hnew : ∀ {y c}, y = x ∧ c ≤ s'.now (s.top x) → s'.clock.status y ≠ .unused ∧
      (s'.clock.status y = .running → c ≤ s'.now (s'.top y)) := by
    rintro y c ⟨rfl, hc⟩
    rw [hf.clock, hf.top, hx]
    exact ⟨by nofun, fun _ => hc⟩
  rcases h with h | h
  · rcases hf.groups.stamped h with h | h
    · exact hnew h
    · exact hold (.inl h)
  · rcases hf.masks.stamped h with h | h
    · exact hnew h
    · exact hold (.inr h)

/-- A reader that has been opened, and has read nothing. -/
theorem partInv_openReader {name : Option ℕ} (base : ℕ) (canMatch : RowGroup α → Bool) (sc : Scan α)
    (hs : Sane s)
    {now : ℕ}
    (hnow : s.now sc.top ≤ now) (hproj : s.findProjection sc.top now name = sc.projStorage) :
    PartInv base canMatch s sc (s.openReader base sc.top now name sc.snapshot) := by
  refine ⟨hs.fresh sc hnow, hproj, ?_, by nofun, rfl, by nofun, fun _ => rfl⟩
  show s.livenessCache base sc.top (s.findProjection sc.top now name) _ = _
  rw [hproj]
  rfl

theorem modifyM_eq_some {f : Participant α → Option (Participant α)} {q : Option ℕ}
    (h : sc.modifyM f q = some sc') :
    ∃ pre p p' post, sc.participants = pre ++ p :: post ∧ f p = some p' ∧
      sc'.participants = pre ++ p' :: post ∧ sc'.top = sc.top ∧ sc'.snapshot = sc.snapshot ∧
      sc'.projStorage = sc.projStorage ∧ sc'.dsm = sc.dsm ∧ sc'.kind = sc.kind ∧
      sc'.leader.isSome = sc.leader.isSome ∧ sc'.parallelCounter = sc.parallelCounter := by
  cases q with
  | none =>
    obtain ⟨p, hp, h⟩ := bind_eq_some_iff.mp h
    obtain ⟨p', hf, rfl⟩ := map_eq_some_iff.mp h
    refine ⟨[], p, p', sc.workers, ?_, hf, rfl, rfl, rfl, rfl, rfl, rfl, ?_, rfl⟩
    · rw [Scan.participants, hp]
      rfl
    · rw [hp]
      rfl
  | some i =>
    obtain ⟨p, hp, h⟩ := bind_eq_some_iff.mp h
    obtain ⟨p', hf, rfl⟩ := map_eq_some_iff.mp h
    obtain ⟨hi, rfl⟩ := List.getElem?_eq_some_iff.mp hp
    refine ⟨sc.leader.toList ++ sc.workers.take i, _, p', sc.workers.drop (i + 1), ?_, hf, ?_,
      rfl, rfl, rfl, rfl, rfl, rfl, rfl⟩
    · rw [Scan.participants, append_assoc, ← drop_eq_getElem_cons hi, take_append_drop]
    · rw [Scan.participants, append_assoc, set_eq_take_append_cons_drop, if_pos hi]

theorem PartInv.of_eq (h : PartInv base canMatch s sc p) (htop : sc'.top = sc.top)
    (hsnap : sc'.snapshot = sc.snapshot) (hproj : sc'.projStorage = sc.projStorage)
    (scan : Option (Scan α)) : PartInv base canMatch { s with scan := scan } sc' p := by
  have hlist : State.serialList { s with scan := scan } base sc' = s.serialList base sc := by
    unfold State.serialList
    rw [htop, hsnap, hproj]
    rfl
  have hrows : State.serialGroupRows { s with scan := scan } base sc' =
    s.serialGroupRows base sc := by
    funext g
    unfold State.serialGroupRows
    rw [htop, hsnap, hproj]
    rfl
  refine ⟨?_, h.proj.trans hproj.symm, ?_, ?_, ?_, ?_, h.idle⟩
  · have hf := h.fresh
    unfold Fresh at hf ⊢
    rw [hsnap, htop]
    exact hf
  · rw [htop, hproj]
    exact h.cache
  · rw [hlist]
    exact h.list
  · rw [hlist, hrows]
    exact h.rows
  · rw [hlist]
    exact h.exhausted

/-- One participant takes a step, and the counter counts its claims. -/
theorem ScanInv.modifyM {f : Participant α → Option (Participant α)} {q : Option ℕ}
    (h : ScanInv base canMatch s sc) {claims : List ℕ} {n : ℕ}
    (hm : sc.modifyM f q = some sc')
    (hf : ∀ p p', PartInv base canMatch s sc p → f p = some p' →
      PartInv base canMatch s sc p' ∧ p'.claimed = p.claimed ++ claims)
    (hn : (List.range sc.parallelCounter ++ claims).Perm (List.range n)) (scan : Option (Scan α)) :
    ScanInv base canMatch { s with scan := scan } { sc' with parallelCounter := n } := by
  obtain ⟨pre, p, p', post, hparts, hp, hparts', htop, hsnap, hproj, hdsm, hkind, hled, _⟩ :=
    modifyM_eq_some hm
  have hmem : p ∈ sc.participants := by
    rw [hparts]
    simp
  obtain ⟨hinv, hclaimed⟩ := hf p p' (h.parts p hmem) hp
  refine ⟨?_, ?_, ?_, ?_, ?_, fun hk => hproj.trans (h.plain fun heq => hk (hkind.trans heq)),
    fun hk => hled.trans (h.led (hkind.symm.trans hk))⟩
  · intro snap cur heq
    exact h.held snap cur (hsnap.symm.trans heq)
  · intro now hnow
    have := h.dsm now (by rw [← hdsm]; exact hnow)
    rw [this]
    show s.now sc.top = s.now sc'.top
    rw [htop]
  · intro w hw
    have hw : w ∈ pre ++ p' :: post := hparts' ▸ hw
    have hw : w = p' ∨ w ∈ sc.participants := by
      rw [hparts]
      simp only [mem_append, mem_cons] at hw ⊢
      tauto
    have hpart : PartInv base canMatch s sc w := by
      rcases hw with rfl | hw
      · exact hinv
      · exact h.parts w hw
    refine hpart.of_eq ?_ ?_ ?_ scan
    · exact htop
    · exact hsnap
    · exact hproj
  · show (sc'.participants.flatMap (·.claimed)).Perm (List.range n)
    have hold := h.claims
    rw [hparts, flatMap_append, flatMap_cons] at hold
    rw [hparts', flatMap_append, flatMap_cons, hclaimed]
    refine .trans ?_ ((hold.append_right claims).trans hn)
    rw [append_assoc, append_assoc, append_assoc]
    exact .append_left _ (.append_left _ perm_append_comm)
  · intro hnone hk
    have := h.unopened (hdsm.symm.trans hnone) (fun heq => hk (hkind.trans heq))
    rw [this] at hmem
    cases hmem

theorem ScanInv.modifyM_same {f : Participant α → Option (Participant α)} {q : Option ℕ}
    (h : ScanInv base canMatch s sc) (hm : sc.modifyM f q = some sc')
    (hf : ∀ p p', PartInv base canMatch s sc p → f p = some p' →
      PartInv base canMatch s sc p' ∧ p'.claimed = p.claimed ++ []) (scan : Option (Scan α)) :
    ScanInv base canMatch { s with scan := scan } sc' := by
  obtain ⟨_, _, _, _, _, _, _, _, _, _, _, _, _, hcounter⟩ := modifyM_eq_some hm
  refine h.modifyM hm hf (n := sc'.parallelCounter) ?_ scan
  rw [append_nil, hcounter]

theorem PartInv.readStart (h : PartInv base canMatch s sc p) (hs : Sane s)
    (hp : s.readStart base sc.top p = some p') :
    PartInv base canMatch s sc p' ∧ p'.claimed = p.claimed ++ [] := by
  unfold State.readStart at hp
  obtain ⟨hnone, hp⟩ := ite_none_right_eq_some.mp hp
  cases hp
  refine ⟨⟨h.fresh, h.proj, h.cache, ?_, h.rows, h.exhausted, by nofun⟩,
    (append_nil _).symm⟩
  rintro l ⟨rfl⟩
  rw [h.proj]
  exact h.fresh.list_eq (hs.serial sc)

theorem PartInv.nextGroupIndex (h : PartInv base canMatch s sc p) {gi : ℕ}
    (hp : p.nextGroupIndex canMatch gi = some p') :
    PartInv base canMatch s sc p' ∧ p'.claimed = p.claimed ++ [gi] := by
  unfold Participant.nextGroupIndex at hp
  split at hp
  · cases hp
  · next groups hgroups =>
    obtain ⟨hidle, hp⟩ := ite_none_left_eq_some.mp hp
    have hload : p.loading = none := by
      simpa using fun hl => hidle (.inr hl)
    have hlist := h.list groups hgroups
    have hrows := h.rows
    rw [hload, toList_none, flatMap_nil, append_nil] at hrows
    split at hp
    · next hnone =>
      cases hp
      refine ⟨⟨h.fresh, h.proj, h.cache, h.list, ?_, ?_, ?_⟩, rfl⟩
      · rw [flatMap_append, ← hrows]
        simp [rowsAt, ← hlist, hnone, hload]
      · intro _
        refine ⟨gi, mem_append_right _ (mem_singleton.mpr rfl), ?_⟩
        rw [← hlist]
        exact getElem?_eq_none_iff.mp hnone
      · intro hn
        rw [show p.rowGroupList = none from hn] at hgroups
        cases hgroups
    · next g hg =>
      cases hp
      refine ⟨⟨h.fresh, h.proj, h.cache, h.list, ?_, ?_, ?_⟩, rfl⟩
      · rw [flatMap_append, ← hrows]
        congr 1
        simp only [rowsAt, ← hlist, hg, flatMap_cons, flatMap_nil, append_nil,
          toList_some, filter_cons, filter_nil]
        split <;> rfl
      · intro hex
        obtain ⟨i, hi, hle⟩ := h.exhausted hex
        exact ⟨i, mem_append_left _ hi, hle⟩
      · intro hn
        rw [show p.rowGroupList = none from hn] at hgroups
        cases hgroups

theorem PartInv.loadGroup (h : PartInv base canMatch s sc p) (hs : Sane s)
    (hp : s.loadGroup sc.top p = some p') :
    PartInv base canMatch s sc p' ∧ p'.claimed = p.claimed ++ [] := by
  obtain ⟨g, hg, rfl⟩ := map_eq_some_iff.mp hp
  refine ⟨⟨h.fresh, h.proj, h.cache, h.list, ?_, h.exhausted, h.idle⟩, (append_nil _).symm⟩
  rw [← h.rows, hg, h.serialGroupRows hs]
  simp

theorem PartInv.rescan (h : PartInv base canMatch s sc p) : PartInv base canMatch s sc p.rescan :=
  ⟨h.fresh, h.proj, h.cache, by nofun, rfl, by nofun, fun _ => rfl⟩

theorem Inv.setScan (hs : Sane s) (h : ScanInv base canMatch { s with scan := some sc } sc) :
    Inv base canMatch { s with scan := some sc } := by
  refine ⟨⟨hs.clock, hs.stamps⟩, ?_⟩
  rintro _ ⟨rfl⟩
  exact h

theorem Inv.beginScan {name : Option ℕ} (h : Inv base canMatch s) {kind : Kind}
    {snapshot : ScanSnapshot}
    (hstep : stepScan base canMatch s (.beginScan x kind name snapshot) = some s') :
    Inv base canMatch s' := by
  simp only [stepScan] at hstep
  obtain ⟨hcond, hstep⟩ := ite_none_right_eq_some.mp hstep
  obtain ⟨_, hx, _, hheld, hname⟩ := hcond
  have hsnap : ∀ snap cur, snapshot = .mvcc snap cur → snap ∈ s.clock.snapshots := by
    rintro snap cur rfl
    exact of_decide_eq_true hheld
  clear hheld hname
  cases kind with
  | custom =>
    obtain ⟨s₁, hflush, rfl⟩ := map_eq_some_iff.mp hstep
    have hf := (flushed_flush hflush).1
    have hs₁ := h.sane.flushed hf hx
    refine Inv.setScan hs₁ ⟨?_, by nofun, ?_, .refl _, fun _ hne => absurd rfl hne,
      fun hne => absurd rfl hne, fun _ => rfl⟩
    · intro snap cur heq
      show snap ∈ s₁.clock.snapshots
      rw [hf.clock]
      exact hsnap snap cur heq
    · intro p hp
      rw [mem_singleton.mp hp]
      have hopen := partInv_openReader base canMatch ⟨s.top x, .custom, name, snapshot,
        s₁.findProjection (s.top x) (s₁.now (s.top x)) name, none, 0, none, []⟩ hs₁
        (le_refl _) rfl
      refine hopen.of_eq ?_ ?_ ?_ _
      · rfl
      · rfl
      · rfl
  | aggregate | tableAm =>
    cases hstep
    exact Inv.setScan h.sane ⟨hsnap, by nofun, by nofun, .refl _, fun _ _ => rfl, fun _ => rfl,
      by nofun⟩

theorem Inv.initializeDSM (h : Inv base canMatch s)
    (hstep : stepScan base canMatch s (.initializeDSM x) = some s') : Inv base canMatch s' := by
  obtain ⟨sc, hsc, hstep⟩ := bind_eq_some_iff.mp hstep
  have hi := h.scan sc hsc
  obtain ⟨hcond, hstep⟩ := ite_none_right_eq_some.mp hstep
  obtain ⟨hdsm, hx, htop⟩ := hcond
  have hdsm := isNone_iff_eq_none.mp hdsm
  -- a custom scan has its reader already, the others have none
  have hflushed : ∀ s₁, s.flush x true = some s₁ → sc.kind ≠ .custom →
      Inv base canMatch { s₁ with scan := some { sc with dsm := some (s.now sc.top) } } := by
    intro s₁ hflush hkind
    obtain ⟨hf, hnow⟩ := flushed_flush hflush
    have hnone := hi.unopened hdsm hkind
    have hclaims := hi.claims
    refine Inv.setScan (h.sane.flushed hf hx) ⟨?_, ?_, ?_, hclaims, by nofun, hi.plain, hi.led⟩
    · intro snap cur heq
      show snap ∈ s₁.clock.snapshots
      rw [hf.clock]
      exact hi.held snap cur heq
    · rintro now ⟨rfl⟩
      show s.now sc.top = s₁.now sc.top
      rw [hnow rfl]
    · intro p hp
      have hp : p ∈ sc.participants := hp
      rw [hnone] at hp
      cases hp
  split at hstep
  · cases hstep
    refine Inv.setScan h.sane ⟨hi.held, ?_, ?_, hi.claims, by nofun, hi.plain, hi.led⟩
    · rintro now ⟨rfl⟩
      rfl
    · intro p hp
      refine (hi.parts p hp).of_eq ?_ ?_ ?_ _
      · rfl
      · rfl
      · rfl
  · next hkind =>
    obtain ⟨s₁, hflush, rfl⟩ := map_eq_some_iff.mp hstep
    exact hflushed s₁ hflush hkind

theorem Inv.openLeader (h : Inv base canMatch s)
    (hstep : stepScan base canMatch s .openLeader = some s') : Inv base canMatch s' := by
  obtain ⟨sc, hsc, hstep⟩ := bind_eq_some_iff.mp hstep
  have hi := h.scan sc hsc
  obtain ⟨hcond, hstep⟩ := ite_none_right_eq_some.mp hstep
  obtain ⟨hdsm, hnone⟩ := hcond
  cases hstep
  have hnone := isNone_iff_eq_none.mp hnone
  have hkind : sc.kind ≠ .custom := by
    intro hk
    have hled := hi.led hk
    rw [hnone] at hled
    cases hled
  have hclaims := hi.claims
  unfold Scan.participants at hclaims
  rw [hnone] at hclaims
  refine Inv.setScan h.sane ⟨hi.held, hi.dsm, ?_, hclaims, ?_, hi.plain, fun _ => rfl⟩
  · intro p hp
    rcases mem_cons.mp hp with rfl | hp
    · have hproj : s.findProjection sc.top (s.now sc.top) none = sc.projStorage :=
        (hi.plain hkind).symm
      have hopen := partInv_openReader base canMatch sc h.sane (le_refl _) hproj
      refine hopen.of_eq ?_ ?_ ?_ _
      · rfl
      · rfl
      · rfl
    · refine (hi.parts p (mem_append_right _ hp)).of_eq ?_ ?_ ?_ _
      · rfl
      · rfl
      · rfl
  · intro hd
    rw [show sc.dsm = none from hd] at hdsm
    cases hdsm

theorem Inv.startWorker (h : Inv base canMatch s) (hok : Steady s .startWorker)
    (hstep : stepScan base canMatch s .startWorker = some s') : Inv base canMatch s' := by
  obtain ⟨sc, hsc, hstep⟩ := bind_eq_some_iff.mp hstep
  obtain ⟨now, hnow, rfl⟩ := map_eq_some_iff.mp hstep
  have hi := h.scan sc hsc
  have heq := hi.dsm now hnow
  refine Inv.setScan h.sane ⟨hi.held, hi.dsm, ?_, ?_, ?_, hi.plain, hi.led⟩
  · intro p hp
    have hp : p ∈ sc.leader.toList ++ (sc.workers ++ [_]) := hp
    rw [← append_assoc] at hp
    have hpart : PartInv base canMatch s sc p := by
      rcases mem_append.mp hp with hp | hp
      · exact hi.parts p hp
      · rw [mem_singleton.mp hp]
        exact partInv_openReader base canMatch sc h.sane (le_of_eq heq.symm) (hok sc hsc now hnow)
    refine hpart.of_eq ?_ ?_ ?_ _
    · rfl
    · rfl
    · rfl
  · show ((sc.leader.toList ++ (sc.workers ++ [_])).flatMap Participant.claimed).Perm _
    rw [← append_assoc, flatMap_append]
    have hnil : [s.openReader base sc.top now sc.projName sc.snapshot].flatMap Participant.claimed =
      [] := rfl
    rw [hnil, append_nil]
    exact hi.claims
  · intro hd
    rw [show sc.dsm = none from hd] at hnow
    cases hnow

theorem Inv.rescan (h : Inv base canMatch s)
    (hstep : stepScan base canMatch s .rescan = some s') : Inv base canMatch s' := by
  obtain ⟨sc, hsc, hstep⟩ := bind_eq_some_iff.mp hstep
  have hi := h.scan sc hsc
  obtain ⟨hdsm, hstep⟩ := ite_none_right_eq_some.mp hstep
  cases hstep
  have hmem : ∀ p ∈ ((if sc.kind = .aggregate then none else sc.leader.map (·.rescan)) :
      Option (Participant α)).toList ++ [], ∃ q ∈ sc.participants, p = q.rescan := by
    intro p hp
    rw [append_nil, mem_toList] at hp
    split_ifs at hp
    obtain ⟨q, hq, rfl⟩ := map_eq_some_iff.mp hp
    exact ⟨q, mem_append_left _ (mem_toList.mpr hq), rfl⟩
  refine Inv.setScan h.sane ⟨hi.held, hi.dsm, ?_, ?_, ?_, hi.plain, ?_⟩
  · intro p hp
    obtain ⟨q, hq, rfl⟩ := hmem p hp
    refine (hi.parts q hq).rescan.of_eq ?_ ?_ ?_ _
    · rfl
    · rfl
    · rfl
  · refine perm_nil.mpr (flatMap_eq_nil_iff.mpr fun p hp => ?_)
    obtain ⟨q, _, rfl⟩ := hmem p hp
    rfl
  · intro hd
    rw [show sc.dsm = none from hd] at hdsm
    cases hdsm
  · intro hk
    have hk : sc.kind = .custom := hk
    simp [hk, hi.led hk]

/-- **Every step keeps the invariant.** -/
theorem Inv.step {a : Action α} (h : Inv base canMatch s) (hok : Steady s a)
    (hstep : step base canMatch s a = some s') : Inv base canMatch s' := by
  rcases outside_step h.sane.clock hok hstep with ho | hstep
  · exact h.outside ho
  · cases a with
    | beginScan x kind name snapshot => exact h.beginScan hstep
    | initializeDSM x => exact h.initializeDSM hstep
    | openLeader => exact h.openLeader hstep
    | startWorker => exact h.startWorker hok hstep
    | readStart q =>
      obtain ⟨sc, hsc, hstep⟩ := bind_eq_some_iff.mp hstep
      obtain ⟨_, hstep⟩ := ite_none_right_eq_some.mp hstep
      obtain ⟨sc', hm, rfl⟩ := map_eq_some_iff.mp hstep
      exact Inv.setScan h.sane
        ((h.scan sc hsc).modifyM_same hm (fun p p' hp => hp.readStart h.sane) _)
    | nextGroupIndex q =>
      obtain ⟨sc, hsc, hstep⟩ := bind_eq_some_iff.mp hstep
      obtain ⟨sc', hm, rfl⟩ := map_eq_some_iff.mp hstep
      refine Inv.setScan h.sane ((h.scan sc hsc).modifyM hm (fun p p' hp => hp.nextGroupIndex) ?_ _)
      rw [range_succ]
    | loadGroup q =>
      obtain ⟨sc, hsc, hstep⟩ := bind_eq_some_iff.mp hstep
      obtain ⟨sc', hm, rfl⟩ := map_eq_some_iff.mp hstep
      exact Inv.setScan h.sane
        ((h.scan sc hsc).modifyM_same hm (fun p p' hp => hp.loadGroup h.sane) _)
    | rescan => exact h.rescan hstep
    | endScan =>
      obtain ⟨sc, _, rfl⟩ := map_eq_some_iff.mp hstep
      exact ⟨⟨h.sane.clock, h.sane.stamps⟩, by simp⟩
    | _ => cases hstep

/-! ## Complete scans -/

/-- Some participant has scanned, and whoever has is done. -/
def Scan.Complete (sc : Scan α) : Prop :=
  (∃ p ∈ sc.participants, p.rowGroupList ≠ none) ∧
    ∀ p ∈ sc.participants, p.rowGroupList ≠ none → p.exhausted = true ∧ p.loading = none

instance [DecidableEq α] (sc : Scan α) : Decidable sc.Complete :=
  inferInstanceAs (Decidable ((∃ p ∈ sc.participants, _) ∧ ∀ p ∈ sc.participants, _))

/-- The participants have the list of the serial scan, and no index is claimed twice.  When
the scan is complete every index of the list has been claimed, and the rows are those of
the serial scan. -/
def ScanOk (base : ℕ) (canMatch : RowGroup α → Bool) (s : State α) : Prop :=
  ∀ sc ∈ s.scan, (∀ p ∈ sc.participants, ∀ l ∈ p.rowGroupList, l = s.serialList base sc) ∧
    (sc.participants.flatMap (·.claimed)).Nodup ∧
    (sc.Complete → (∀ i < (s.serialList base sc).length, i ∈ sc.participants.flatMap (·.claimed)) ∧
      (sc.participants.flatMap (·.produced)).Perm (s.serialRows base canMatch sc))

theorem PartInv.produced (h : PartInv base canMatch s sc p)
    (hdone : p.rowGroupList ≠ none → p.exhausted = true ∧ p.loading = none) :
    p.produced =
      p.claimed.flatMap (rowsAt canMatch (s.serialGroupRows base sc) (s.serialList base sc)) := by
  rw [← h.rows]
  cases hl : p.rowGroupList with
  | none =>
    have hrows := h.rows
    rw [h.idle hl, flatMap_nil, append_eq_nil_iff] at hrows
    rw [hrows.2, append_nil]
  | some l =>
    rw [(hdone (by rw [hl]; nofun)).2]
    simp

theorem ScanInv.length_le (h : ScanInv base canMatch s sc) (hdone : sc.Complete) :
    (s.serialList base sc).length ≤ sc.parallelCounter := by
  obtain ⟨⟨p, hp, hstarted⟩, hall⟩ := hdone
  obtain ⟨i, hi, hle⟩ := (h.parts p hp).exhausted (hall p hp hstarted).1
  have hmem := h.claims.subset (mem_flatMap.mpr ⟨p, hp, hi⟩)
  exact hle.trans (le_of_lt (mem_range.mp hmem))

theorem Inv.scanOk (h : Inv base canMatch s) : ScanOk base canMatch s := by
  intro sc hsc
  have hi := h.scan sc hsc
  refine ⟨fun p hp => (hi.parts p hp).list, hi.claims.nodup_iff.mpr nodup_range, ?_⟩
  intro hdone
  have hlen := hi.length_le hdone
  refine ⟨fun i hlt => hi.claims.mem_iff.mpr (mem_range.mpr (hlt.trans_le hlen)), ?_⟩
  have hproduced : sc.participants.flatMap (·.produced) =
      (sc.participants.flatMap (·.claimed)).flatMap
        (rowsAt canMatch (s.serialGroupRows base sc) (s.serialList base sc)) := by
    rw [flatMap_assoc]
    exact flatMap_congr fun p hp => (hi.parts p hp).produced (hdone.2 p hp)
  rw [hproduced]
  refine (hi.claims.flatMap_right _).trans ?_
  rw [flatMap_rowsAt _ _ _ hlen]
  exact .refl _

/-- **A parallel scan returns what the serial scan returns**, in every run whose steps are
`Steady`. -/
theorem scanOk_run (base : ℕ) (canMatch : RowGroup α → Bool) (lazy : ℕ → Bool)
    (acts : List (Action α)) (s : State α)
    (hok : Run.AllSteps (step base canMatch) Steady (State.init lazy) acts)
    (h : Run.run (step base canMatch) (State.init lazy) acts = some s) :
    ScanOk base canMatch s := by
  have hinv : Inv base canMatch s := Run.run_invariant_of
    (fun _ _ _ hs hok hstep => hs.step hok hstep) (Inv.init lazy) hok h
  exact hinv.scanOk

instance decidableSteady (s : State α) : ∀ a, Decidable (Steady s a)
  | .startWorker => inferInstanceAs (Decidable (∀ sc ∈ s.scan, ∀ now ∈ sc.dsm, _ = _))
  | .flush _ => inferInstanceAs (Decidable (∀ sc ∈ s.scan, _ ≠ _))
  | .pruneGroup _ => inferInstanceAs (Decidable (∀ sc ∈ s.scan, _ ≠ _))
  | .pruneMask _ => inferInstanceAs (Decidable (∀ sc ∈ s.scan, _ ≠ _))
  | .takeSnapshot => inferInstanceAs (Decidable (s.clock.Lists s.lazy))
  | .begin | .beginSub _ | .commit _ | .abort _ | .dropSnapshot _ | .commandEnd _ | .hint ..
  | .buffer .. | .bufferMark .. | .retire .. | .addProjection .. | .dropProjection ..
  | .pruneProjection _ | .beginScan .. | .initializeDSM _ | .openLeader | .readStart _
  | .nextGroupIndex _ | .loadGroup _ | .rescan | .endScan => isTrue trivial

/-- A transaction writes two row groups and a projection of both. -/
def tableRun : List (Action ℕ) :=
  [.begin, .addProjection 0 ⟨1, 1⟩, .buffer 0 ⟨0, 1, 0, [(0, 10)]⟩, .buffer 0 ⟨0, 2, 1, [(1, 11)]⟩,
    .buffer 0 ⟨1, 1, 0, [(0, 10), (1, 11)]⟩, .flush 0, .commit 0]

/-- The leader and a worker scan, once and again.  The transaction has a row and a delete
mark buffered, and a lazy vacuum retires a group meanwhile. -/
def steadyRun : List (Action ℕ) :=
  tableRun ++ [.begin, .takeSnapshot, .buffer 1 ⟨0, 3, 2, [(2, 12)]⟩, .bufferMark 1 ⟨0, 1, [0]⟩,
    .beginScan 1 .custom none (.mvcc ⟨2, [1]⟩ 0), .initializeDSM 1, .startWorker, .readStart none,
    .nextGroupIndex none, .begin, .retire 2 1, .commit 2, .rescan, .startWorker,
    .readStart (some 0), .nextGroupIndex (some 0), .readStart none, .nextGroupIndex none,
    .loadGroup none, .loadGroup (some 0), .nextGroupIndex none, .loadGroup none,
    .nextGroupIndex none, .nextGroupIndex (some 0)]

theorem scanOk_run_steady :
    ∃ s, Run.run (step 0 fun _ => true) (State.init (· == 2)) steadyRun = some s ∧
      s.scan.map (fun sc => sc.participants.flatMap (·.produced)) = some [(1, 11), (2, 12)] ∧
      ScanOk 0 (fun _ => true) s := by
  have hrun : (Run.run (step 0 fun _ => true) (State.init (· == 2)) steadyRun).map
      (fun s => s.scan.map fun sc => sc.participants.flatMap (·.produced)) =
      some (some [(1, 11), (2, 12)]) := by
    decide +kernel
  obtain ⟨s, hs, hprod⟩ := map_eq_some_iff.mp hrun
  exact ⟨s, hs, hprod, scanOk_run 0 (fun _ => true) (· == 2) steadyRun s (by decide +kernel) hs⟩

/-- What a run leaves of its scan: whether it is complete, its rows, and the serial scan's. -/
def outcome (acts : List (Action ℕ)) : Option (Option (Bool × List (ℕ × ℕ) × List (ℕ × ℕ))) :=
  (Run.run (step 0 fun _ => true) (State.init fun _ => false) acts).map fun s =>
    s.scan.map fun sc =>
    (decide sc.Complete, sc.participants.flatMap (·.produced), s.serialRows 0 (fun _ => true) sc)

/-- A complete scan with other rows than the serial scan's. -/
theorem not_scanOk_of_outcome {acts : List (Action ℕ)} {rows serial : List (ℕ × ℕ)}
    (h : outcome acts = some (some (true, rows, serial))) (hlen : rows.length ≠ serial.length) :
    ∃ s, Run.run (step 0 fun _ => true) (State.init fun _ => false) acts = some s ∧
      ¬ ScanOk 0 (fun _ => true) s := by
  obtain ⟨s, hs, h⟩ := map_eq_some_iff.mp h
  obtain ⟨sc, hsc, h⟩ := map_eq_some_iff.mp h
  simp only [Prod.mk.injEq, decide_eq_true_eq] at h
  obtain ⟨hdone, rfl, rfl⟩ := h
  exact ⟨s, hs, fun hok => hlen ((hok sc hsc).2.2 hdone).2.length_eq⟩

/-- The plan reads the projection.  It is dropped after the leader has opened it and before
the worker looks for it, so the worker claims index 0 of the relation's own list. -/
def droppedProjection : List (Action ℕ) :=
  tableRun ++ [.begin, .takeSnapshot, .beginScan 1 .custom (some 1) (.mvcc ⟨2, [1]⟩ 0),
    .initializeDSM 1, .begin, .dropProjection 2 0, .retire 2 2, .commit 2, .startWorker,
    .readStart (some 0), .nextGroupIndex (some 0), .readStart none, .nextGroupIndex none,
    .loadGroup (some 0), .nextGroupIndex (some 0)]

/-- The row 1 is lost. -/
theorem not_scanOk_droppedProjection :
    outcome droppedProjection = some (some (true, [(0, 10)], [(0, 10), (1, 11)])) ∧
      ∃ s, Run.run (step 0 fun _ => true) (State.init fun _ => false) droppedProjection = some s ∧
        ¬ ScanOk 0 (fun _ => true) s := by
  have h : outcome droppedProjection = some (some (true, [(0, 10)], [(0, 10), (1, 11)])) := by
    decide +kernel
  exact ⟨h, not_scanOk_of_outcome h (by decide)⟩

end PgColumnar.Parallel
