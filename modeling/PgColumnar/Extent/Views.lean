import PgColumnar.Extent.Column

/-!
# Views of the extent catalog

A set of transactions decides what is seen of the catalog: the ids of a snapshot, or what
has committed together with some transactions that may commit next.  The bounds have to be
right for all of these sets at once; a commit then only turns one of them into another.

## Main definitions

* `Sound`, `Cover` — when the rows of a view bound its groups.
* `IsView` — the sets of transactions that some reader may see.
* `Inv` — the invariant of a run.
-/

namespace PgColumnar.Extent

open Mvcc Zone Compare List

variable {α ε : Type}

/-! ## Bounds -/

/-- The bounds exist and enclose the value. -/
def Covers (cmp : α → α → ℤ) (b : Option (α × α)) (v : α) : Prop :=
  ∃ p ∈ b, cmp p.1 v ≤ 0 ∧ cmp v p.2 ≤ 0

variable {s : State α} {cmp : α → α → ℤ} {m m' : Option (α × α)} {v : α}

theorem Covers.foldMinMax_left (hc : TotalCmp cmp) (h : Covers cmp m v) :
    Covers cmp (foldMinMax cmp m m') v := by
  obtain ⟨⟨clo, chi⟩, hm, hlo, hhi⟩ := h
  rw [Option.mem_def] at hm
  subst hm
  cases m' with
  | none => exact ⟨(clo, chi), rfl, hlo, hhi⟩
  | some p =>
    obtain ⟨lo, hi⟩ := p
    refine ⟨_, rfl, ?_, ?_⟩
    · dsimp only
      split
      · next hlt => exact hc.trans lo clo v (le_of_lt hlt) hlo
      · exact hlo
    · dsimp only
      split
      · next hgt => exact hc.trans v chi hi hhi (le_of_lt (hc.lt_swap.mpr hgt))
      · exact hhi

theorem Covers.foldMinMax_right (hc : TotalCmp cmp) (h : Covers cmp m' v) :
    Covers cmp (foldMinMax cmp m m') v := by
  obtain ⟨⟨lo, hi⟩, hm, hlo, hhi⟩ := h
  rw [Option.mem_def] at hm
  subst hm
  cases m with
  | none => exact ⟨(lo, hi), rfl, hlo, hhi⟩
  | some p =>
    obtain ⟨clo, chi⟩ := p
    refine ⟨_, rfl, ?_, ?_⟩
    · dsimp only
      split
      · exact hlo
      · next hnlt => exact hc.trans clo lo v (hc.le_swap.mpr (not_lt.mp hnlt)) hlo
    · dsimp only
      split
      · exact hhi
      · next hngt => exact hc.trans v hi chi hhi (not_lt.mp hngt)

theorem Covers.foldl {bs : List (Option (α × α))} (hc : TotalCmp cmp)
    (h : Covers cmp m v ∨ ∃ b ∈ bs, Covers cmp b v) :
    Covers cmp (bs.foldl (foldMinMax cmp) m) v := by
  induction bs generalizing m with
  | nil =>
    rcases h with h | ⟨b, hb, _⟩
    · exact h
    · cases hb
  | cons b bs ih =>
    refine ih ?_
    rcases h with h | ⟨b', hb', h⟩
    · exact .inl (h.foldMinMax_left hc)
    · rcases mem_cons.mp hb' with rfl | hb'
      · exact .inl (h.foldMinMax_right hc)
      · exact .inr ⟨b', hb', h⟩

variable {col : ColumnDef α ε}

theorem Covers.foldBounds {bs : List (Option (α × α))} (hcmp : col.cmp = some cmp)
    (hc : TotalCmp cmp) {b : Option (α × α)}
    (hb : b ∈ bs) (h : Covers cmp b v) :
    Covers cmp (foldBounds col bs) v := by
  have heq : extentCmp col = cmp := by
    funext a b
    simp only [extentCmp, hcmp]
  rw [Extent.foldBounds, heq]
  exact Covers.foldl hc (.inr ⟨b, hb, h⟩)

/-! ## Zone maps -/

/-- The group has a zone map, and it bounds the group's values. -/
def Group.Zoned (cmp : α → α → ℤ) (g : Group α) : Prop :=
  ∃ z ∈ g.zone, (z.minMax = none → z.valueCount = 0) ∧ ∀ v, some v ∈ g.rows → Covers cmp z.minMax v

theorem valueCount_bufferOf (col : ColumnDef α ε) (rows : List (Option α)) :
    (bufferOf col rows).valueCount = (rows.filterMap id).length := by
  induction rows using List.reverseRecOn with
  | nil => rfl
  | append_singleton rows r ih =>
    unfold bufferOf at ih ⊢
    rw [foldl_append, filterMap_append, length_append]
    cases r with
    | none => exact ih
    | some v => exact congrArg (· + 1) ih

theorem valueCount_chunkZoneOf (col : ColumnDef α ε) (vectors : List (List (Option α))) :
    (chunkZoneOf col vectors).valueCount = (vectors.flatten.filterMap id).length := by
  unfold chunkZoneOf
  rw [map_map, filterMap_flatten, length_flatten, map_map]
  exact congrArg List.sum (map_congr_left fun rows _ => valueCount_bufferOf col rows)

/-- The zone map of a flushed group bounds it. -/
theorem zoned_chunkZoneOf (hcmp : col.cmp = some cmp) (hc : TotalCmp cmp)
    (hfast : FastCmpOk col) (vectors : List (List (Option α))) (x : ℕ) (retirer : Option ℕ) :
    Group.Zoned cmp ⟨vectors.flatten, some (chunkZoneOf col vectors), x, retirer⟩ := by
  have hext := extremes_chunkMinMax hcmp hc hfast vectors
  refine ⟨_, rfl, ?_, ?_⟩
  · intro hnone
    have hvals := hext.1 hnone
    rw [valueCount_chunkZoneOf, hvals, length_nil]
  · intro v hv
    have hmem : v ∈ vectors.flatten.filterMap id := mem_filterMap.mpr ⟨some v, hv, rfl⟩
    cases hm : chunkMinMax col (vectors.map (bufferOf col)) with
    | none =>
      rw [hext.1 hm] at hmem
      cases hmem
    | some p =>
      have hb := hext.2 p hm
      exact ⟨p, hm, hb.lower v hmem, hb.upper v hmem⟩

/-! ## Views -/

def GVis (W : ℕ → Prop) (g : Group α) : Prop := W g.writer ∧ ∀ y ∈ g.retirer, ¬ W y

def RVis (W : ℕ → Prop) (r : ExtentRow α) : Prop := W r.inserter ∧ ∀ y ∈ r.deleter, ¬ W y

/-- What has committed, and some of the running transactions.  A subtransaction is there
only with its transaction, and all of them are once the transaction commits. -/
structure IsView (s : State α) (W : ℕ → Prop) : Prop where
  committed : ∀ x, s.clock.status x = .committed → W x
  live : ∀ x, W x → s.clock.status x = .committed ∨ s.clock.status x = .running
  up : ∀ x, s.clock.status x = .running → W x → W (s.top x)
  full : ∀ x, s.clock.status x = .running → W (s.top x) → (s.xact (s.top x)).phase ≠ .active → W x

/-- The value is within a visible row, or within what its writer will write. -/
def Cover (cmp : α → α → ℤ) (s : State α) (W : ℕ → Prop) (g : Group α) (v : α) : Prop :=
  (∃ r ∈ s.extents, RVis W r ∧ Covers cmp r.bounds v) ∨
    s.clock.status g.writer = .running ∧ Covers cmp (s.xact (s.top g.writer)).pending v

/-- If a complete row is visible, every visible group has a zone map and is bounded. -/
def Sound (cmp : α → α → ℤ) (s : State α) (W : ℕ → Prop) : Prop :=
  (∃ r ∈ s.extents, r.complete = true ∧ RVis W r) → ∀ g ∈ s.groups, GVis W g →
    g.zone ≠ none ∧ ∀ v, some v ∈ g.rows → Cover cmp s W g v

/-- The value is within the row its writer wrote or will write. -/
def OwnCover (cmp : α → α → ℤ) (s : State α) (g : Group α) (v : α) : Prop :=
  (∃ r ∈ s.extents, r.inserter = s.top g.writer ∧
    (∀ y ∈ r.deleter, s.clock.status y = .aborted) ∧ Covers cmp r.bounds v) ∨
    Covers cmp (s.xact (s.top g.writer)).pending v

/-- What transaction `t` sees under the snapshot. -/
def At (s : State α) (snap : Snapshot) (t x : ℕ) : Prop :=
  s.clock.sees snap x ∨ s.clock.status x = .running ∧ s.top x = t

/-- The holder of the lock, between its snapshot and its write: nobody else replaces rows,
and whoever commits in between leaves a row of its own. -/
structure Locked (cmp : α → α → ℤ) (s : State α) (t : ℕ) (snap : Snapshot) : Prop where
  held : snap ∈ s.clock.snapshots
  sound : Sound cmp s (At s snap t)
  complete : ∀ r ∈ s.extents, r.complete = true → s.clock.status r.inserter = .committed →
    s.clock.sees snap r.inserter
  deleters : ∀ r ∈ s.extents, ∀ y ∈ r.deleter, s.clock.status y = .committed → s.clock.sees snap y
  later : ∀ g ∈ s.groups, s.clock.status g.writer = .committed → ¬ s.clock.sees snap g.writer →
    g.zone ≠ none ∧ ∀ v, some v ∈ g.rows → ∃ r ∈ s.extents,
      s.clock.status r.inserter = .committed ∧ ¬ s.clock.sees snap r.inserter ∧
      (∀ y ∈ r.deleter, s.clock.status y = .aborted) ∧ Covers cmp r.bounds v

structure Inv (cmp : α → α → ℤ) (s : State α) : Prop where
  clock : s.clock.Wf
  usedGroups : ∀ g ∈ s.groups, s.clock.status g.writer ≠ .unused ∧
    ∀ y ∈ g.retirer, s.clock.status y ≠ .unused
  usedRows : ∀ r ∈ s.extents, s.clock.status r.inserter ≠ .unused ∧
    ∀ y ∈ r.deleter, s.clock.status y ≠ .unused
  zoned : ∀ g ∈ s.groups, g.zone = none ∧ s.clock.status g.writer = .committed ∨ g.Zoned cmp
  tops : ∀ x, s.clock.status x = .running → s.top (s.top x) = s.top x ∧
    s.clock.status (s.top x) = .running
  phases : ∀ t, (s.xact t).phase ≠ .active → s.clock.status t = .running ∧ s.top t = t
  locked : ∀ t, s.lock = some t → s.clock.status t = .running ∧ s.top t = t ∧
    ((s.xact t).phase = .done ∨ ∃ merge snap, (s.xact t).phase = .replace merge snap)
  replacing : ∀ t merge snap, (s.xact t).phase = .replace merge snap → s.lock = some t
  pending : ∀ t, (s.xact t).phase ≠ .active → (s.xact t).phase ≠ .recompute →
    (∀ snap, (s.xact t).phase ≠ .replace false snap) → (s.xact t).pending = none
  inserters : ∀ r ∈ s.extents, s.clock.status r.inserter = .running →
    s.top r.inserter = r.inserter ∧ (s.xact r.inserter).phase ≠ .active
  completes : ∀ r ∈ s.extents, r.complete = true → s.clock.status r.inserter = .running →
    s.lock = some r.inserter ∧ (s.xact r.inserter).phase = .done
  deleters : ∀ r ∈ s.extents, ∀ y ∈ r.deleter, s.clock.status y = .running →
    s.lock = some y ∧ (s.xact y).phase = .done
  own : ∀ g ∈ s.groups, s.clock.status g.writer = .running →
    s.lock ≠ some (s.top g.writer) → ∀ v, some v ∈ g.rows → OwnCover cmp s g v
  views : ∀ W, IsView s W → Sound cmp s W
  snapshots : ∀ snap ∈ s.clock.snapshots, Sound cmp s (s.clock.sees snap)
  computing : ∀ t merge snap, (s.xact t).phase = .replace merge snap → Locked cmp s t snap

theorem Inv.top_not_committed (h : Inv cmp s) {x : ℕ} (hx : s.clock.status x = .running) :
    s.clock.status (s.top x) ≠ .committed := by
  rw [(h.tops x hx).2]
  nofun

theorem Inv.active_ne (h : Inv cmp s) {t : ℕ} (ht : s.lock = some t) :
    (s.xact t).phase ≠ .active := by
  rcases (h.locked t ht).2.2 with hp | ⟨_, _, hp⟩
  · rw [hp]
    nofun
  · rw [hp]
    nofun

end PgColumnar.Extent
