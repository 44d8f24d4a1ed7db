import PgColumnar.Zone.Btree

/-!
# Skipping by the bounds of ranges

The operators `&&` and `@>` on a range column are answered by the lower bound of the least
range and by the greatest upper bound (`native_range_excludes`).  The writer and the reader
compare bounds with the default comparison of the element type, under the collation of the
range type.  A range type compares its own bounds with the comparison of the operator class
it was declared with, which is a parameter of its own here.

## Main definitions

* `nativeRangeExcludes` — the test against the bounds of ranges.
* `SameOrder` — two comparisons that agree on the ranges there are.

## Main results

* `rangeSound_iff` — exactly when the test is sound.
-/

namespace PgColumnar.Zone

open Bytes Encoding Compare List Int Option

variable {ε : Type*} {rng elemCmp : ε → ε → ℤ}

/-! ### Ranges -/

/-- Where an infinite bound stands. -/
def RangeBound.side (b : RangeBound ε) : ℤ := if b.infinite then (if b.lower then -1 else 1) else 0

/-- An exclusive lower bound begins after its value, an exclusive upper bound ends before. -/
def RangeBound.offset (b : RangeBound ε) : ℤ :=
  if b.inclusive then 0 else if b.lower then 1 else -1

/-- `range_cmp_bounds`. -/
def rangeCmpBounds (rng : ε → ε → ℤ) (b c : RangeBound ε) : ℤ :=
  if b.side ≠ 0 ∨ c.side ≠ 0 then b.side - c.side
  else if rng b.val c.val ≠ 0 then rng b.val c.val
  else b.offset - c.offset

/-- A range of the type: empty, or two bounds in order. -/
structure Range (rng : ε → ε → ℤ) where
  bounds : Option (RangeBound ε × RangeBound ε)
  lower : ∀ b ∈ bounds, b.1.lower = true ∧ b.2.lower = false
  order : ∀ b ∈ bounds, rangeCmpBounds rng b.1 b.2 ≤ 0

/-- `range_cmp`: empty ranges first, then by the lower and by the upper bound. -/
def rangeCmp (rng : ε → ε → ℤ) (r s : Range rng) : ℤ :=
  match r.bounds, s.bounds with
  | none, none => 0
  | none, some _ => -1
  | some _, none => 1
  | some (l, u), some (l', u') =>
    if rangeCmpBounds rng l l' ≠ 0 then rangeCmpBounds rng l l' else rangeCmpBounds rng u u'

/-- The operator `&&`. -/
def rangeOverlaps (rng : ε → ε → ℤ) (r s : Range rng) : Bool :=
  match r.bounds, s.bounds with
  | some (l, u), some (l', u') =>
    decide (0 ≤ rangeCmpBounds rng l l' ∧ rangeCmpBounds rng l u' ≤ 0) ||
      decide (0 ≤ rangeCmpBounds rng l' l ∧ rangeCmpBounds rng l' u ≤ 0)
  | _, _ => false

/-- The operator `@>` with an element. -/
def rangeContainsElem (rng : ε → ε → ℤ) (r : Range rng) (e : ε) : Bool :=
  match r.bounds with
  | none => false
  | some (l, u) =>
    (l.infinite || decide (rng l.val e < 0 ∨ rng l.val e = 0 ∧ l.inclusive = true)) &&
      (u.infinite || decide (0 < rng u.val e ∨ rng u.val e = 0 ∧ u.inclusive = true))

/-- What the right side of the operator is.  A predicate is not built for an empty range. -/
inductive Probe (rng : ε → ε → ℤ) where
  | overlap (probe : Range rng) (lower upper : RangeBound ε)
      (bounds : probe.bounds = some (lower, upper))
  | containsElem (e : ε)

def Probe.Satisfies (rng : ε → ε → ℤ) (p : Probe rng) (r : Range rng) : Prop :=
  match p with
  | .overlap probe _ _ _ => rangeOverlaps rng r probe = true
  | .containsElem e => rangeContainsElem rng r e = true

/-! ### The test of the reader -/

/-- Every range ends before the probe starts. -/
def endsBefore (elemCmp : ε → ε → ℤ) (maxUpper : Option ε) : Probe rng → Bool
  | .overlap _ lower _ _ =>
    maxUpper.any fun u => !lower.infinite &&
      (decide (elemCmp u lower.val < 0) || (decide (elemCmp u lower.val = 0) && !lower.inclusive))
  | .containsElem e => maxUpper.any fun u => decide (elemCmp u e < 0)

/-- Every range starts after the probe ends. -/
def startsAfter (elemCmp : ε → ε → ℤ) (unitLower : RangeBound ε) : Probe rng → Bool
  | .overlap _ _ upper _ =>
    !unitLower.infinite && !upper.infinite && (decide (0 < elemCmp unitLower.val upper.val) ||
        (decide (elemCmp unitLower.val upper.val = 0) && !(unitLower.inclusive && upper.inclusive)))
  | .containsElem e => !unitLower.infinite && decide (0 < elemCmp unitLower.val e)

/-- `native_range_excludes`. -/
def nativeRangeExcludes {α : Type*} (codec : ValueCodec α) (r : RangeDef α ε) (p : Probe rng)
    (z : Option ZoneMap) : Except Fault Bool :=
  match z with
  | none => .ok false
  | some z =>
    match z.minMax with
    | none => .ok false
    | some (minimum, _) =>
      match codec.decode minimum with
      | .error e => .error e
      | .ok minv =>
        match r.deserialize minv with
        | none => .ok false
        | some (unitLower, _) =>
          if z.hasMaxUpper && !z.upperUnbounded && !z.maxUpper.isEmpty then
            match r.elemCodec.decode z.maxUpper with
            | .error e => .error e
            | .ok maxUpper =>
              .ok (endsBefore r.elemCmp (some maxUpper) p || startsAfter r.elemCmp unitLower p)
          else .ok (endsBefore r.elemCmp none p || startsAfter r.elemCmp unitLower p)

/-- A column of a range type. -/
def rangeColumn (rng elemCmp : ε → ε → ℤ) (codec : ValueCodec (Range rng))
    (elemCodec : ValueCodec ε) : ColumnDef (Range rng) ε where
  codec := codec
  cmp := some (rangeCmp rng)
  fastCmp := none
  range := some ⟨Range.bounds, elemCmp, elemCodec⟩

/-- No range of a vector or of a chunk that is skipped satisfies the operator. -/
def RangeSound (rng elemCmp : ε → ε → ℤ) (codec : ValueCodec (Range rng))
    (elemCodec : ValueCodec ε) : Prop :=
  ∀ (written read : Bool) (vectors : List (List (Option (Range rng)))) (p : Probe rng),
    (∀ rows ∈ vectors, nativeRangeExcludes codec ⟨Range.bounds, elemCmp, elemCodec⟩ p
        (some (stored written read (vectorZone (rangeColumn rng elemCmp codec elemCodec)
          (bufferOf (rangeColumn rng elemCmp codec elemCodec) rows)))) = .ok true →
      ∀ r, some r ∈ rows → ¬ p.Satisfies rng r) ∧
    (nativeRangeExcludes codec ⟨Range.bounds, elemCmp, elemCodec⟩ p
        (some (stored written read (chunkZone (rangeColumn rng elemCmp codec elemCodec)
          (vectors.map (bufferOf (rangeColumn rng elemCmp codec elemCodec)))))) = .ok true →
      ∀ rows ∈ vectors, ∀ r, some r ∈ rows → ¬ p.Satisfies rng r)

/-! ### The order of bounds -/

theorem RangeBound.side_eq_zero {b : RangeBound ε} : b.side = 0 ↔ b.infinite = false := by
  unfold RangeBound.side
  cases b.infinite <;> cases b.lower <;> simp

theorem totalCmp_rangeCmpBounds (hr : TotalCmp rng) : TotalCmp (rangeCmpBounds rng) where
  swap b c := by
    unfold rangeCmpBounds
    by_cases hside : b.side ≠ 0 ∨ c.side ≠ 0
    · rw [if_pos hside, if_pos hside.symm, ← sign_neg, neg_sub]
    · rw [if_neg hside, if_neg fun h => hside h.symm]
      have hswap := hr.swap b.val c.val
      by_cases hval : rng b.val c.val = 0
      · have hval' : rng c.val b.val = 0 := by
          rw [hval] at hswap
          exact sign_eq_zero_iff_zero.mp (by simpa using hswap)
        rw [if_neg (not_not.mpr hval), if_neg (not_not.mpr hval'), ← sign_neg, neg_sub]
      · have hval' : rng c.val b.val ≠ 0 := by
          intro hzero
          rw [hzero, sign_zero] at hswap
          exact hval (sign_eq_zero_iff_zero.mp (by omega))
        rw [if_pos hval, if_pos hval']
        exact hswap
  trans b c d hbc hcd := by
    unfold rangeCmpBounds at hbc hcd ⊢
    by_cases hc : c.side = 0
    · by_cases hb : b.side = 0
      · by_cases hd : d.side = 0
        · -- three finite bounds: by value, then by offset
          rw [if_neg (by simp [hb, hc])] at hbc
          rw [if_neg (by simp [hc, hd])] at hcd
          rw [if_neg (by simp [hb, hd])]
          have hle : rng b.val c.val ≤ 0 := by
            split at hbc
            · exact hbc
            · omega
          have hle' : rng c.val d.val ≤ 0 := by
            split at hcd
            · exact hcd
            · omega
          have htrans := hr.trans _ _ _ hle hle'
          split
          · exact htrans
          · next hzero =>
            rw [not_not] at hzero
            have hb0 : rng b.val c.val = 0 := by
              by_contra hne
              have := hr.lt_of_lt_of_le (by omega : rng b.val c.val < 0) hle'
              omega
            have hc0 : rng c.val d.val = 0 := by
              by_contra hne
              have := hr.lt_of_le_of_lt hle (by omega : rng c.val d.val < 0)
              omega
            rw [if_neg (not_not.mpr hb0)] at hbc
            rw [if_neg (not_not.mpr hc0)] at hcd
            omega
        · rw [if_pos (.inr hd)] at hcd ⊢
          omega
      · rw [if_pos (.inl hb)] at hbc ⊢
        by_cases hd : d.side = 0
        · omega
        · rw [if_pos (.inr hd)] at hcd
          omega
    · rw [if_pos (.inr hc)] at hbc
      rw [if_pos (.inl hc)] at hcd
      -- an infinite bound in the middle makes one of the others infinite
      by_cases hside : b.side ≠ 0 ∨ d.side ≠ 0
      · rw [if_pos hside]
        omega
      · omega

/-- Two finite bounds on different sides, by their values. -/
theorem rangeCmpBounds_pos {l u : RangeBound ε} (hl : l.infinite = false) (hu : u.infinite = false)
    (hlower : l.lower = true) (hupper : u.lower = false) :
    0 < rangeCmpBounds rng l u ↔
      0 < rng l.val u.val ∨ rng l.val u.val = 0 ∧ ¬ (l.inclusive = true ∧ u.inclusive = true) := by
  unfold rangeCmpBounds
  rw [if_neg (by simp [RangeBound.side_eq_zero, hl, hu])]
  split
  · next hne => simp [hne]
  · next hzero =>
    rw [not_not] at hzero
    simp only [hzero, lt_self_iff_false, true_and, false_or, RangeBound.offset, hlower, hupper]
    cases l.inclusive <;> cases u.inclusive <;> simp

theorem totalCmp_rangeCmp (hr : TotalCmp rng) : TotalCmp (rangeCmp rng) := by
  -- the lower bounds decide and then the upper ones; an empty range comes first
  have hb := totalCmp_rangeCmpBounds hr
  constructor
  · intro r s
    unfold rangeCmp
    cases hrb : r.bounds with
    | none => cases s.bounds <;> rfl
    | some p =>
      cases hsb : s.bounds with
      | none => rfl
      | some q =>
        have hswap := hb.swap p.1 q.1
        dsimp only
        by_cases hzero : rangeCmpBounds rng p.1 q.1 = 0
        · have hzero' : rangeCmpBounds rng q.1 p.1 = 0 := by
            rw [hzero] at hswap
            exact sign_eq_zero_iff_zero.mp (by simpa using hswap)
          rw [if_neg (not_not.mpr hzero), if_neg (not_not.mpr hzero')]
          exact hb.swap p.2 q.2
        · have hzero' : rangeCmpBounds rng q.1 p.1 ≠ 0 := by
            intro h0
            rw [h0, sign_zero] at hswap
            exact hzero (sign_eq_zero_iff_zero.mp (by omega))
          rw [if_pos hzero, if_pos hzero']
          exact hswap
  · intro r s w hrs hsw
    unfold rangeCmp at hrs hsw ⊢
    cases hrb : r.bounds with
    | none =>
      cases w.bounds with
      | none => exact le_refl _
      | some _ =>
        show (-1 : ℤ) ≤ 0
        omega
    | some p =>
      rw [hrb] at hrs
      cases hsb : s.bounds with
      | none =>
        rw [hsb] at hrs
        exact absurd (show (1 : ℤ) ≤ 0 from hrs) (by omega)
      | some q =>
        rw [hsb] at hrs hsw
        cases hwb : w.bounds with
        | none =>
          rw [hwb] at hsw
          exact absurd (show (1 : ℤ) ≤ 0 from hsw) (by omega)
        | some o =>
          rw [hwb] at hsw
          dsimp only at hrs hsw ⊢
          have hpq : rangeCmpBounds rng p.1 q.1 ≤ 0 := by
            split at hrs <;> omega
          have hqo : rangeCmpBounds rng q.1 o.1 ≤ 0 := by
            split at hsw <;> omega
          have hpo := hb.trans _ _ _ hpq hqo
          split
          · exact hpo
          · next hzero =>
            rw [not_not] at hzero
            -- a tie of the outer lower bounds is one of all three
            have hpq0 : rangeCmpBounds rng p.1 q.1 = 0 := by
              by_contra hne
              have := hb.lt_of_lt_of_le (by omega : rangeCmpBounds rng p.1 q.1 < 0) hqo
              omega
            have hqo0 : rangeCmpBounds rng q.1 o.1 = 0 := by
              by_contra hne
              have := hb.lt_of_le_of_lt hpq (by omega : rangeCmpBounds rng q.1 o.1 < 0)
              omega
            rw [if_neg (not_not.mpr hpq0)] at hrs
            rw [if_neg (not_not.mpr hqo0)] at hsw
            exact hb.trans _ _ _ hrs hsw

/-! ### The greatest upper bound -/

/-- The bound ends at or before the upper bound. -/
def Upper.Covers (elemCmp : ε → ε → ℤ) (u : Upper ε) (b : RangeBound ε) : Prop :=
  u.has = true ∧ (u.unbounded = true ∨
    b.infinite = false ∧ ∃ m, u.val = some m ∧ elemCmp b.val m ≤ 0)

/-- The three states: none, a bound, and unbounded. -/
structure Upper.Wf (u : Upper ε) : Prop where
  has : u.unbounded = true → u.has = true
  val : u.has = true → u.unbounded = false → ∃ m, u.val = some m

section Fold

variable {α : Type*} {r : RangeDef α ε} {u w : Upper ε}

/-- What the fold takes over from an upper bound that is not greater. -/
theorem Upper.Covers.mono (he : TotalCmp elemCmp) {b : RangeBound ε} (h : u.Covers elemCmp b)
    (hhas : w.has = true) (hle : w.unbounded = true ∨ u.unbounded = false ∧
      ∃ c m, u.val = some c ∧ w.val = some m ∧ elemCmp c m ≤ 0) : w.Covers elemCmp b := by
  refine ⟨hhas, ?_⟩
  rcases hle with hun | ⟨hbounded, c, m, hc, hm, hcm⟩
  · exact .inl hun
  · rcases h.2 with hun | ⟨hfin, c', hc', hbc⟩
    · rw [hun] at hbounded
      cases hbounded
    · have hcc : c' = c := Option.some.inj (hc'.symm.trans hc)
      exact .inr ⟨hfin, m, hm, he.trans _ _ _ hbc (hcc ▸ hcm)⟩

/-- One value more: the new upper bound covers what the old one did, and the value. -/
theorem addUpper_spec (he : TotalCmp r.elemCmp) (hu : u.Wf) (v : α) : (addUpper r v u).Wf ∧
      (∀ b, u.Covers r.elemCmp b → (addUpper r v u).Covers r.elemCmp b) ∧
      ∀ p ∈ r.deserialize v, (addUpper r v u).Covers r.elemCmp p.2 := by
  unfold addUpper
  cases hp : r.deserialize v with
  | none => exact ⟨hu, fun _ h => h, nofun⟩
  | some p =>
    obtain ⟨lower, upper⟩ := p
    simp only [mem_some_iff, forall_eq']
    by_cases hinf : upper.infinite = true
    · rw [if_pos hinf]
      exact ⟨⟨fun _ => rfl, nofun⟩, fun b h => h.mono he rfl (.inl rfl), rfl, .inl rfl⟩
    · have hfin : upper.infinite = false := by simpa using hinf
      rw [if_neg hinf]
      by_cases hun : u.unbounded = true
      · rw [if_pos hun]
        exact ⟨hu, fun _ h => h, hu.has hun, .inl hun⟩
      · have hbounded : u.unbounded = false := by simpa using hun
        rw [if_neg hun]
        by_cases hhas : u.has = true
        · obtain ⟨cur, hcur⟩ := hu.val hhas hbounded
          rw [if_pos hhas, hcur]
          dsimp only
          split
          · next hgt =>
            have hle : r.elemCmp cur upper.val ≤ 0 := le_of_lt (he.lt_swap.mpr hgt)
            refine ⟨⟨hu.has, fun _ _ => ⟨_, rfl⟩⟩, fun b h => h.mono he hhas ?_, hhas, .inr ?_⟩
            · exact .inr ⟨hbounded, cur, upper.val, hcur, rfl, hle⟩
            · exact ⟨hfin, upper.val, rfl, le_of_eq (he.self _)⟩
          · next hngt => exact ⟨hu, fun _ h => h, hhas, .inr ⟨hfin, cur, hcur, not_lt.mp hngt⟩⟩
        · rw [if_neg hhas]
          refine ⟨⟨fun _ => rfl, fun _ _ => ⟨_, rfl⟩⟩, fun b h => absurd h.1 hhas, rfl, .inr ?_⟩
          exact ⟨hfin, upper.val, rfl, le_of_eq (he.self _)⟩

/-- One vector more: the new upper bound covers what either did. -/
theorem foldUpper_spec (he : TotalCmp r.elemCmp) (hu : u.Wf) (hw : w.Wf) : (foldUpper r u w).Wf ∧
      (∀ b, u.Covers r.elemCmp b → (foldUpper r u w).Covers r.elemCmp b) ∧
      ∀ b, w.Covers r.elemCmp b → (foldUpper r u w).Covers r.elemCmp b := by
  unfold foldUpper
  by_cases hwhas : w.has = true
  · rw [if_pos hwhas]
    by_cases huhas : u.has = true
    · rw [if_neg (by simp [huhas])]
      by_cases hwun : w.unbounded = true
      · rw [if_pos hwun]
        exact ⟨⟨fun _ => huhas, nofun⟩, fun b h => h.mono he huhas (.inl rfl),
          fun b h => h.mono he huhas (.inl rfl)⟩
      · have hwb : w.unbounded = false := by simpa using hwun
        rw [if_neg hwun]
        by_cases huun : u.unbounded = true
        · rw [if_pos huun]
          exact ⟨hu, fun _ h => h, fun b h => h.mono he huhas (.inl huun)⟩
        · have hub : u.unbounded = false := by simpa using huun
          obtain ⟨cur, hcur⟩ := hw.val hwhas hwb
          obtain ⟨best, hbest⟩ := hu.val huhas hub
          rw [if_neg huun, hcur, hbest]
          dsimp only
          split
          · next hgt =>
            refine ⟨⟨hu.has, fun _ _ => ⟨_, rfl⟩⟩, fun b h => h.mono he huhas ?_,
              fun b h => h.mono he huhas ?_⟩
            · exact .inr ⟨hub, best, cur, hbest, rfl, le_of_lt (he.lt_swap.mpr hgt)⟩
            · exact .inr ⟨hwb, cur, cur, hcur, rfl, le_of_eq (he.self _)⟩
          · next hngt =>
            refine ⟨hu, fun _ h => h, fun b h => h.mono he huhas ?_⟩
            exact .inr ⟨hwb, cur, best, hcur, hbest, not_lt.mp hngt⟩
    · rw [if_pos (by simp [huhas])]
      exact ⟨hw, fun b h => absurd h.1 huhas, fun _ h => h⟩
  · rw [if_neg hwhas]
    exact ⟨hu, fun _ h => h, fun b h => absurd h.1 hwhas⟩

theorem Upper.wf_start : (Upper.start : Upper ε).Wf := ⟨nofun, nofun⟩

/-- The upper bound of a vector covers the upper bounds of its values. -/
theorem upper_bufferOf (col : ColumnDef α ε) (hrange : col.range = some r)
    (he : TotalCmp r.elemCmp) (rows : List (Option α)) :
    (bufferOf col rows).upper.Wf ∧ ∀ v, some v ∈ rows → ∀ p ∈ r.deserialize v,
      (bufferOf col rows).upper.Covers r.elemCmp p.2 := by
  induction rows using List.reverseRecOn with
  | nil => exact ⟨Upper.wf_start, nofun⟩
  | append_singleton rows row ih =>
    unfold bufferOf at ih ⊢
    rw [foldl_append]
    cases row with
    | none =>
      refine ⟨ih.1, fun v hv => ih.2 v ?_⟩
      simpa using hv
    | some x =>
      obtain ⟨hwf, hold, hnew⟩ := addUpper_spec he ih.1 x
      have hupper : (ColumnBuffer.add col (rows.foldl (ColumnBuffer.add col) .start)
          (some x)).upper = addUpper r x (rows.foldl (ColumnBuffer.add col) .start).upper := by
        simp only [ColumnBuffer.add, hrange]
      rw [foldl_cons, foldl_nil, hupper]
      refine ⟨hwf, fun v hv p hp => ?_⟩
      rcases mem_append.mp hv with hmem | hlast
      · exact hold _ (ih.2 v hmem p hp)
      · cases mem_singleton.mp hlast
        exact hnew p hp

/-- The upper bound of a chunk covers the upper bounds of the values of its vectors. -/
theorem covers_chunkUpper (col : ColumnDef α ε) (hrange : col.range = some r)
    (he : TotalCmp r.elemCmp) (vectors : List (List (Option α))) :
    (chunkUpper col (vectors.map (bufferOf col))).Wf ∧ ∀ rows ∈ vectors, ∀ v, some v ∈ rows →
      ∀ p ∈ r.deserialize v,
        (chunkUpper col (vectors.map (bufferOf col))).Covers r.elemCmp p.2 := by
  unfold chunkUpper
  rw [hrange]
  dsimp only
  induction vectors using List.reverseRecOn with
  | nil => exact ⟨Upper.wf_start, nofun⟩
  | append_singleton vectors rows ih =>
    obtain ⟨hbuf, hcov⟩ := upper_bufferOf col hrange he rows
    obtain ⟨hwf, hold, hnew⟩ := foldUpper_spec he ih.1 hbuf
    rw [map_append, foldl_append]
    refine ⟨hwf, fun rows' hrows v hv p hp => ?_⟩
    rcases mem_append.mp hrows with hmem | hlast
    · exact hold _ (ih.2 rows' hmem v hv p hp)
    · rw [mem_singleton.mp hlast] at hv
      exact hnew _ (hcov v hv p hp)

/-- A bound that the reader takes from the catalog is the one the writer had. -/
theorem maxUpper_stored {col : ColumnDef α ε} (hrange : col.range = some r) (hu : u.Wf)
    {written read : Bool} {n k : ℕ} {m : Option (α × α)} {z : ZoneMap}
    (hz : z = stored written read (zoneOf col n k m u))
    (h : (z.hasMaxUpper && !z.upperUnbounded && !z.maxUpper.isEmpty) = true) :
    u.unbounded = false ∧ ∃ c, u.val = some c ∧ z.maxUpper = r.elemCodec.encode c := by
  subst hz
  obtain ⟨has, unbounded, val⟩ := u
  simp only [stored, zonemapFromTuple, insertZoneMap, zoneOf] at h ⊢
  cases read <;> cases written <;> cases has <;> cases unbounded <;> try simp at h
  obtain ⟨c, hc⟩ := hu.val rfl rfl
  dsimp only at hc
  rw [hrange, hc]
  exact ⟨rfl, c, rfl, rfl⟩

end Fold

/-! ### Skipping -/

section Skip

variable {probe : Probe rng} {r : Range rng} {l u : RangeBound ε}

/-- The two comparisons are the same order. -/
def SameOrder (rng elemCmp : ε → ε → ℤ) : Prop := ∀ a b, (elemCmp a b).sign = (rng a b).sign

theorem SameOrder.pos (h : SameOrder rng elemCmp) {a b : ε} : 0 < elemCmp a b ↔ 0 < rng a b := by
  rw [← sign_pos_iff, h, sign_pos_iff]

theorem SameOrder.neg (h : SameOrder rng elemCmp) {a b : ε} : elemCmp a b < 0 ↔ rng a b < 0 := by
  rw [← sign_neg_iff, h, sign_neg_iff]

theorem SameOrder.zero (h : SameOrder rng elemCmp) {a b : ε} : elemCmp a b = 0 ↔ rng a b = 0 := by
  rw [← sign_eq_zero_iff_zero, h, sign_eq_zero_iff_zero]

/-- Two ranges do not overlap when one ends before the other begins. -/
theorem not_overlaps (hr : TotalCmp rng) {s : Range rng} {l' u' : RangeBound ε}
    (hrb : r.bounds = some (l, u)) (hsb : s.bounds = some (l', u'))
    (hsep : 0 < rangeCmpBounds rng l' u ∨ 0 < rangeCmpBounds rng l u') :
    ¬ rangeOverlaps rng r s = true := by
  have hb := totalCmp_rangeCmpBounds hr
  have hlu : rangeCmpBounds rng l u ≤ 0 := r.order _ hrb
  have hlu' : rangeCmpBounds rng l' u' ≤ 0 := s.order _ hsb
  unfold rangeOverlaps
  rw [hrb, hsb]
  simp only [Bool.or_eq_true, decide_eq_true_eq]
  rintro (⟨h1, h2⟩ | ⟨h1, h2⟩)
  · -- `r` begins inside `s`
    rcases hsep with hsep | hsep
    · have := hb.trans _ _ _ (hb.le_swap.mpr h1) hlu
      omega
    · omega
  · rcases hsep with hsep | hsep
    · omega
    · have := hb.trans _ _ _ (hb.le_swap.mpr h1) hlu'
      omega

theorem not_satisfies_of_endsBefore (hr : TotalCmp rng) (hsame : SameOrder rng elemCmp)
    (hrb : r.bounds = some (l, u)) (hu : u.infinite = false) {m : ε} (hm : elemCmp u.val m ≤ 0)
    (hends : endsBefore elemCmp (some m) probe = true) : ¬ probe.Satisfies rng r := by
  have hum : rng u.val m ≤ 0 := by
    rwa [← not_lt, ← hsame.pos, not_lt]
  cases probe with
  | overlap s l' u' hsb =>
    simp only [endsBefore, any_some, Bool.and_eq_true, Bool.not_eq_true', Bool.or_eq_true,
      decide_eq_true_eq] at hends
    obtain ⟨hfin, hcmp⟩ := hends
    refine not_overlaps hr hrb hsb (.inl ?_)
    rw [rangeCmpBounds_pos hfin hu (s.lower _ hsb).1 (r.lower _ hrb).2]
    rcases hcmp with hlt | ⟨heq, hexcl⟩
    · exact .inl (hr.lt_swap.mp (hr.lt_of_le_of_lt hum (hsame.neg.mp hlt)))
    · have hle : rng u.val l'.val ≤ 0 := hr.trans _ _ _ hum (le_of_eq (hsame.zero.mp heq))
      rcases lt_or_eq_of_le (hr.le_swap.mp hle) with hlt | hzero
      · exact .inl hlt
      · refine .inr ⟨hzero.symm, fun hincl => ?_⟩
        rw [hincl.1] at hexcl
        cases hexcl
  | containsElem e =>
    simp only [endsBefore, any_some, decide_eq_true_eq] at hends
    have hlt : rng u.val e < 0 := hr.lt_of_le_of_lt hum (hsame.neg.mp hends)
    show ¬ rangeContainsElem rng r e = true
    unfold rangeContainsElem
    rw [hrb]
    simp only [hu, Bool.false_or, Bool.and_eq_true, decide_eq_true_eq]
    rintro ⟨-, hgt | ⟨heq, -⟩⟩
    · omega
    · omega

theorem not_satisfies_of_startsAfter (hr : TotalCmp rng) (hsame : SameOrder rng elemCmp)
    (hrb : r.bounds = some (l, u)) {unitLower : RangeBound ε} (hlower : unitLower.lower = true)
    (hle : rangeCmpBounds rng unitLower l ≤ 0)
    (hstarts : startsAfter elemCmp unitLower probe = true) : ¬ probe.Satisfies rng r := by
  have hb := totalCmp_rangeCmpBounds hr
  cases probe with
  | overlap s l' u' hsb =>
    simp only [startsAfter, Bool.and_eq_true, Bool.not_eq_true', Bool.or_eq_true,
      decide_eq_true_eq] at hstarts
    obtain ⟨⟨hfin, hfin'⟩, hcmp⟩ := hstarts
    have hpos : 0 < rangeCmpBounds rng unitLower u' := by
      rw [rangeCmpBounds_pos hfin hfin' hlower (s.lower _ hsb).2]
      rcases hcmp with hgt | ⟨heq, hexcl⟩
      · exact .inl (hsame.pos.mp hgt)
      · refine .inr ⟨hsame.zero.mp heq, fun hincl => ?_⟩
        rw [hincl.1, hincl.2] at hexcl
        cases hexcl
    have hlt := hb.lt_of_lt_of_le (hb.lt_swap.mpr hpos) hle
    exact not_overlaps hr hrb hsb (.inr (hb.lt_swap.mp hlt))
  | containsElem e =>
    simp only [startsAfter, Bool.and_eq_true, Bool.not_eq_true', decide_eq_true_eq] at hstarts
    obtain ⟨hfin, hgt⟩ := hstarts
    have hside : unitLower.side = 0 := RangeBound.side_eq_zero.mpr hfin
    -- a lower bound after a finite one is finite
    have hfin' : l.infinite = false := by
      cases hinf : l.infinite with
      | false => rfl
      | true =>
        have hl : l.side = -1 := by
          unfold RangeBound.side
          rw [hinf, (r.lower _ hrb).1]
          rfl
        unfold rangeCmpBounds at hle
        rw [if_pos (.inr (by omega))] at hle
        omega
    have hval : rng unitLower.val l.val ≤ 0 := by
      unfold rangeCmpBounds at hle
      rw [if_neg (by simp [RangeBound.side_eq_zero, hfin, hfin'])] at hle
      split at hle
      · exact hle
      · omega
    have hpos : 0 < rng l.val e :=
      hr.lt_swap.mp (hr.lt_of_lt_of_le (hr.lt_swap.mpr (hsame.pos.mp hgt)) hval)
    show ¬ rangeContainsElem rng r e = true
    unfold rangeContainsElem
    rw [hrb]
    simp only [hfin', Bool.false_or, Bool.and_eq_true, decide_eq_true_eq]
    rintro ⟨hlt | ⟨heq, -⟩, -⟩
    · omega
    · omega

/-- A range after one that is not empty is not empty, and begins no earlier. -/
theorem bounds_of_rangeCmp {s : Range rng} (hrb : r.bounds = some (l, u))
    (hle : rangeCmp rng r s ≤ 0) :
    ∃ l' u', s.bounds = some (l', u') ∧ rangeCmpBounds rng l l' ≤ 0 := by
  unfold rangeCmp at hle
  rw [hrb] at hle
  cases hsb : s.bounds with
  | none =>
    rw [hsb] at hle
    exact absurd (show (1 : ℤ) ≤ 0 from hle) (by omega)
  | some p =>
    rw [hsb] at hle
    dsimp only at hle
    refine ⟨p.1, p.2, rfl, ?_⟩
    split at hle <;> omega

end Skip

section Sound

variable {codec : ValueCodec (Range rng)} {elemCodec : ValueCodec ε}

/-- A zone map with the least value and an upper bound of the values skips none that
satisfies the operator. -/
theorem not_satisfies_of_rangeExcludes (hr : TotalCmp rng) (hsame : SameOrder rng elemCmp)
    {m : Option (Range rng × Range rng)} {vals : List (Range rng)}
    (hm : ∀ p ∈ m, Bounds (rangeCmp rng) p vals) {u : Upper ε} (hwf : u.Wf)
    (hcov : ∀ r ∈ vals, ∀ p ∈ r.bounds, u.Covers elemCmp p.2) {written read : Bool} {n k : ℕ}
    {probe : Probe rng}
    (hex : nativeRangeExcludes codec ⟨Range.bounds, elemCmp, elemCodec⟩ probe
      (some (stored written read
        (zoneOf (rangeColumn rng elemCmp codec elemCodec) n k m u))) = .ok true) :
    ∀ r ∈ vals, ¬ probe.Satisfies rng r := by
  intro r hmem
  generalize hz : stored written read
    (zoneOf (rangeColumn rng elemCmp codec elemCodec) n k m u) = z at hex
  have hzm : z.minMax = m.map fun p => (codec.encode p.1, codec.encode p.2) := by
    rw [← hz, stored_minMax]
    rfl
  unfold nativeRangeExcludes at hex
  dsimp only at hex
  rw [hzm] at hex
  cases m with
  | none => cases hex
  | some p =>
    have hb := hm p rfl
    simp only [map_some, codec.decode_encode] at hex
    cases hpb : p.1.bounds with
    | none =>
      rw [hpb] at hex
      cases hex
    | some q =>
      obtain ⟨unitLower, unitUpper⟩ := q
      obtain ⟨l, up, hrb, hle⟩ := bounds_of_rangeCmp hpb (hb.lower r hmem)
      have hlower : unitLower.lower = true := (p.1.lower _ hpb).1
      rw [hpb] at hex
      dsimp only at hex
      split at hex
      · next hhave =>
        obtain ⟨hbounded, c, hc, hmax⟩ := maxUpper_stored rfl hwf hz.symm hhave
        rw [hmax, elemCodec.decode_encode] at hex
        simp only [Except.ok.injEq, Bool.or_eq_true] at hex
        rcases hex with hends | hstarts
        · rcases (hcov r hmem _ hrb).2 with hun | ⟨hfin, c', hc', hle'⟩
          · rw [hun] at hbounded
            cases hbounded
          · have hcc : c' = c := Option.some.inj (hc'.symm.trans hc)
            exact not_satisfies_of_endsBefore hr hsame hrb hfin (hcc ▸ hle') hends
        · exact not_satisfies_of_startsAfter hr hsame hrb hlower hle hstarts
      · simp only [Except.ok.injEq, Bool.or_eq_true] at hex
        rcases hex with hends | hstarts
        · cases probe <;> cases hends
        · exact not_satisfies_of_startsAfter hr hsame hrb hlower hle hstarts

theorem rangeSound_of_sameOrder (hr : TotalCmp rng) (he : TotalCmp elemCmp)
    (hsame : SameOrder rng elemCmp) : RangeSound rng elemCmp codec elemCodec := by
  intro written read vectors probe
  have hc := totalCmp_rangeCmp hr
  have hfast : FastCmpOk (rangeColumn rng elemCmp codec elemCodec) := nofun
  constructor
  · intro rows _ hex r hmem
    obtain ⟨hwf, hcov⟩ := upper_bufferOf (rangeColumn rng elemCmp codec elemCodec) rfl he rows
    refine not_satisfies_of_rangeExcludes hr hsame (minMax_bufferOf rfl hc hfast rows).2 hwf ?_ hex
      r (mem_filterMap.mpr ⟨some r, hmem, rfl⟩)
    intro s hs
    obtain ⟨o, hmem', ho⟩ := mem_filterMap.mp hs
    exact hcov s (ho ▸ hmem')
  · intro hex rows hrows r hmem
    obtain ⟨hwf, hcov⟩ := covers_chunkUpper (rangeColumn rng elemCmp codec elemCodec) rfl he vectors
    refine not_satisfies_of_rangeExcludes hr hsame (extremes_chunkMinMax rfl hc hfast vectors).2
      hwf ?_ hex r (mem_filterMap.mpr ⟨some r, mem_flatten.mpr ⟨rows, hrows, hmem⟩, rfl⟩)
    intro s hs
    obtain ⟨o, hmem', ho⟩ := mem_filterMap.mp hs
    obtain ⟨rows', hrows', hin⟩ := mem_flatten.mp hmem'
    exact hcov rows' hrows' s (ho ▸ hin)

/-- The range from `a` to `b`, with `a`. -/
def between {a b : ε} (inclusive : Bool)
    (h : rangeCmpBounds rng ⟨a, false, true, true⟩ ⟨b, false, inclusive, false⟩ ≤ 0) :
    Range rng where
  bounds := some (⟨a, false, true, true⟩, ⟨b, false, inclusive, false⟩)
  lower _ hb := by
    cases hb
    exact ⟨rfl, rfl⟩
  order _ hb := by
    cases hb
    exact h

theorem rangeOverlaps_self (hr : TotalCmp rng) {r : Range rng} {l u : RangeBound ε}
    (hrb : r.bounds = some (l, u)) : rangeOverlaps rng r r = true := by
  have hself : 0 ≤ rangeCmpBounds rng l l := le_of_eq ((totalCmp_rangeCmpBounds hr).self l).symm
  unfold rangeOverlaps
  rw [hrb]
  simp [hself, r.order _ hrb]

/-- A vector of one range, probed with the same range. -/
theorem not_startsAfter_of_rangeSound (hr : TotalCmp rng)
    (hs : RangeSound rng elemCmp codec elemCodec) {r : Range rng} {l u : RangeBound ε}
    (hrb : r.bounds = some (l, u)) : ¬ startsAfter elemCmp l (.overlap r l u hrb) = true := by
  intro hstarts
  refine (hs false false [[some r]] (.overlap r l u hrb)).1 [some r] (by simp) ?_ r (by simp)
    (rangeOverlaps_self hr hrb)
  have hmin : (stored false false (vectorZone (rangeColumn rng elemCmp codec elemCodec)
      (bufferOf (rangeColumn rng elemCmp codec elemCodec) [some r]))).minMax =
      some (codec.encode r, codec.encode r) := stored_minMax _ _ _
  have hupper : (stored false false (vectorZone (rangeColumn rng elemCmp codec elemCodec)
      (bufferOf (rangeColumn rng elemCmp codec elemCodec) [some r]))).hasMaxUpper = false := rfl
  unfold nativeRangeExcludes
  simp only [hmin, hupper, codec.decode_encode, hrb, Bool.false_and, Bool.false_eq_true, if_false,
    hstarts, Bool.or_true]

theorem sameOrder_of_rangeSound (hr : TotalCmp rng) (he : TotalCmp elemCmp)
    (hs : RangeSound rng elemCmp codec elemCodec) : SameOrder rng elemCmp := by
  -- `[a, b]` shows that the element type does not order `b` before `a`
  have hle : ∀ a b, rng a b ≤ 0 → elemCmp a b ≤ 0 := by
    intro a b hab
    have hbounds : rangeCmpBounds rng ⟨a, false, true, true⟩ ⟨b, false, true, false⟩ ≤ 0 := by
      simp only [rangeCmpBounds, RangeBound.side, RangeBound.offset]
      rw [if_neg (by simp)]
      split
      · exact hab
      · simp
    have hnot := not_startsAfter_of_rangeSound hr hs (r := between true hbounds) rfl
    simpa [startsAfter] using hnot
  -- and `[a, b)` that it does not call them equal
  have hlt : ∀ a b, rng a b < 0 → elemCmp a b < 0 := by
    intro a b hab
    have hbounds : rangeCmpBounds rng ⟨a, false, true, true⟩ ⟨b, false, false, false⟩ ≤ 0 := by
      simp only [rangeCmpBounds, RangeBound.side]
      rw [if_neg (by simp), if_pos hab.ne]
      exact hab.le
    have hnot := not_startsAfter_of_rangeSound hr hs (r := between false hbounds) rfl
    refine lt_of_le_of_ne (hle a b hab.le) fun heq => hnot ?_
    simp [startsAfter, heq]
  intro a b
  rcases lt_trichotomy (rng a b) 0 with hneg | hzero | hpos
  · rw [sign_eq_neg_one_of_neg hneg, sign_eq_neg_one_of_neg (hlt a b hneg)]
  · have hba : rng b a ≤ 0 := hr.le_swap.mpr (le_of_eq hzero.symm)
    have heq : elemCmp a b = 0 :=
      le_antisymm (hle a b (le_of_eq hzero)) (he.le_swap.mp (hle b a hba))
    rw [hzero, heq]
  · have hba := hlt b a (hr.lt_swap.mpr hpos)
    rw [sign_eq_one_of_pos hpos, sign_eq_one_of_pos (he.lt_swap.mp hba)]

/-- **Ranges are skipped soundly exactly if the comparisons are the same order.**  The
comparison of the range type is that of its operator class; the writer and the reader use
the default one of the element type. -/
theorem rangeSound_iff (rng elemCmp : ε → ε → ℤ) (hr : TotalCmp rng) (he : TotalCmp elemCmp)
    (codec : ValueCodec (Range rng)) (elemCodec : ValueCodec ε) :
    RangeSound rng elemCmp codec elemCodec ↔ ∀ a b, (elemCmp a b).sign = (rng a b).sign :=
  ⟨sameOrder_of_rangeSound hr he, rangeSound_of_sameOrder hr he⟩

end Sound

/-! Ranges of `int4`, under an operator class that orders it downwards. -/

/-- `range_serialize`: header, type, bounds and flags. -/
def encodeRange (rng : BitVec 32 → BitVec 32 → ℤ) (r : Range rng) : List Byte :=
  match r.bounds with
  | none => leBytes 4 (4 * 9) ++ leBytes 4 16999 ++ [1]
  | some (l, u) =>
    leBytes 4 (4 * 17) ++ leBytes 4 16999 ++ leBytes 4 l.val.toNat ++ leBytes 4 u.val.toNat ++
      [BitVec.ofNat 8 (l.inclusive.toNat * 2 + u.inclusive.toNat * 4 + l.infinite.toNat * 8 +
        u.infinite.toNat * 16)]

def decodeRange (rng : BitVec 32 → BitVec 32 → ℤ) (bs : List Byte) : Except Fault (Range rng) :=
  let flags := bs.getLastD 0
  let l := ⟨.ofNat 32 (leNat ((bs.drop 8).take 4)), flags.getLsbD 3, flags.getLsbD 1, true⟩
  let u := ⟨.ofNat 32 (leNat ((bs.drop 12).take 4)), flags.getLsbD 4, flags.getLsbD 2, false⟩
  if flags.getLsbD 0 then .ok ⟨none, nofun, nofun⟩
  else if h : rangeCmpBounds rng l u ≤ 0 then
    .ok ⟨some (l, u), fun _ hb => by cases hb; exact ⟨rfl, rfl⟩, fun _ hb => by cases hb; exact h⟩
  else .error (.corrupt "range lower bound must be less than or equal to range upper bound")

theorem Range.ext {r s : Range rng} (h : r.bounds = s.bounds) : r = s := by
  cases r
  cases s
  cases h
  rfl

theorem ofNat_leNat_leBytes (v : BitVec 32) : BitVec.ofNat 32 (leNat (leBytes 4 v.toNat)) = v := by
  rw [leNat_leBytes_of_lt v.isLt, BitVec.ofNat_toNat, BitVec.setWidth_eq]

theorem decodeRange_encodeRange (rng : BitVec 32 → BitVec 32 → ℤ) (r : Range rng) :
    decodeRange rng (encodeRange rng r) = .ok r := by
  unfold encodeRange
  cases hb : r.bounds with
  | none => exact congrArg Except.ok (Range.ext hb.symm)
  | some p =>
    obtain ⟨⟨a, linf, linc, ll⟩, ⟨b, uinf, uinc, ul⟩⟩ := p
    obtain ⟨hl, hu⟩ := r.lower _ hb
    subst hl hu
    have horder := r.order _ hb
    dsimp only
    generalize hf : BitVec.ofNat 8 (linc.toNat * 2 + uinc.toNat * 4 + linf.toNat * 8 +
      uinf.toNat * 16) = f
    have hflags : f.getLsbD 0 = false ∧ f.getLsbD 1 = linc ∧ f.getLsbD 2 = uinc ∧
        f.getLsbD 3 = linf ∧ f.getLsbD 4 = uinf := by
      rw [← hf]
      clear hf horder hb
      revert linc uinc linf uinf
      decide
    obtain ⟨h0, h1, h2, h3, h4⟩ := hflags
    have hl : (⟨.ofNat 32 (leNat (leBytes 4 a.toNat)), f.getLsbD 3, f.getLsbD 1, true⟩ :
        RangeBound (BitVec 32)) = ⟨a, linf, linc, true⟩ := by
      rw [ofNat_leNat_leBytes, h3, h1]
    have hu : (⟨.ofNat 32 (leNat (leBytes 4 b.toNat)), f.getLsbD 4, f.getLsbD 2, false⟩ :
        RangeBound (BitVec 32)) = ⟨b, uinf, uinc, false⟩ := by
      rw [ofNat_leNat_leBytes, h4, h2]
    rw [← hl, ← hu] at horder
    refine (if_neg (by rw [Bool.not_eq_true]; exact h0)).trans ((dif_pos horder).trans ?_)
    exact congrArg Except.ok (Range.ext ((congrArg some (Prod.ext hl hu)).trans hb.symm))

theorem encodeRange_ne_nil (rng : BitVec 32 → BitVec 32 → ℤ) (r : Range rng) :
    encodeRange rng r ≠ [] := by
  unfold encodeRange
  split <;> simp

def int4RangeCodec (rng : BitVec 32 → BitVec 32 → ℤ) : ValueCodec (Range rng) where
  encode := encodeRange rng
  decode := decodeRange rng
  decode_encode := decodeRange_encodeRange rng
  encode_ne_nil := encodeRange_ne_nil rng

def btint4cmp (a b : BitVec 32) : ℤ := btintCmp a.toInt b.toInt

/-- The support function of an operator class that orders `int4` downwards. -/
def btint4cmpDesc (a b : BitVec 32) : ℤ := btintCmp b.toInt a.toInt

theorem totalCmp_btint4cmp : TotalCmp btint4cmp := totalCmp_of_key fun _ _ => btintCmp_sign _ _

/-- Ranges of the default operator class are skipped soundly. -/
theorem rangeSound_int4 : RangeSound btint4cmp btint4cmp (int4RangeCodec btint4cmp) int4Codec :=
  (rangeSound_iff btint4cmp btint4cmp totalCmp_btint4cmp totalCmp_btint4cmp
    (int4RangeCodec btint4cmp) int4Codec).mpr fun _ _ => rfl

/-- The range `[9, 1]` of the class that orders downwards. -/
def descRange : Range btint4cmpDesc :=
  between true (show rangeCmpBounds btint4cmpDesc ⟨9, false, true, true⟩ ⟨1, false, true, false⟩ ≤ 0
    by decide)

/-- A vector of `[9, 1]` is skipped for `&& [9, 1]`, in the order of the class. -/
theorem not_rangeSound_desc :
    nativeRangeExcludes (int4RangeCodec btint4cmpDesc) ⟨Range.bounds, btint4cmp, int4Codec⟩
        (.overlap descRange ⟨9, false, true, true⟩ ⟨1, false, true, false⟩ rfl)
        (some (stored true true (vectorZone
          (rangeColumn btint4cmpDesc btint4cmp (int4RangeCodec btint4cmpDesc) int4Codec)
          (bufferOf (rangeColumn btint4cmpDesc btint4cmp (int4RangeCodec btint4cmpDesc) int4Codec)
            [some descRange])))) = .ok true ∧
      rangeOverlaps btint4cmpDesc descRange descRange = true ∧
      ¬ RangeSound btint4cmpDesc btint4cmp (int4RangeCodec btint4cmpDesc) int4Codec := by
  have hex : nativeRangeExcludes (int4RangeCodec btint4cmpDesc) ⟨Range.bounds, btint4cmp, int4Codec⟩
      (.overlap descRange ⟨9, false, true, true⟩ ⟨1, false, true, false⟩ rfl)
      (some (stored true true (vectorZone
        (rangeColumn btint4cmpDesc btint4cmp (int4RangeCodec btint4cmpDesc) int4Codec)
        (bufferOf (rangeColumn btint4cmpDesc btint4cmp (int4RangeCodec btint4cmpDesc) int4Codec)
          [some descRange])))) = .ok true := by decide +kernel
  have hover : rangeOverlaps btint4cmpDesc descRange descRange = true := by decide
  refine ⟨hex, hover, fun hs => ?_⟩
  exact (hs true true [[some descRange]] _).1 [some descRange] (by simp) hex descRange (by simp)
    hover

end PgColumnar.Zone
