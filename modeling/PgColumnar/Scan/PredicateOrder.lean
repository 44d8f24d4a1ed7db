import Mathlib.Data.List.Perm.Basic
import Mathlib.Data.List.Infix
import PgColumnar.Lib.Catalog

/-!
# The order in which a scan tries its predicates

A read state keeps its skip predicates in an array and tries them in the order of a
second array, `predOrder`, which each exclusion may change: the predicate that excluded a
group moves one place to the front (`pgcolumnar_predicate_excluded`).  A join attaches two
more predicates, the bounds of its build side, at the end of both arrays
(`PgColumnarReadSetRuntimeRange`), and detaches them by lowering the count
(`PgColumnarReadClearRuntimeRange`).

What a predicate is and what it excludes are parameters here.

## Main definitions

* `groupCanMatch` — the tests of a group; an exclusion moves its predicate ahead.
* `Faithful` — the order names each attached predicate once.
* `KeepsBehind` — no bound gets ahead of a scan predicate.

## Main results

* `predicateExcluded_spec` — what one exclusion changes.
* `faithful_of_keepsBehind` — the order stays faithful as long as bounds keep behind.
-/

namespace PgColumnar.Scan

open List Catalog Nat

/-- A predicate: what the tests read of it, and what orders the tests. -/
structure SkipPredicate (β : Type*) where
  body : β
  searchArray : Bool
  excludes : ℕ
  runtimeFilter : Bool
  deriving DecidableEq

structure ReadState (β : Type*) where
  predicates : List (SkipPredicate β)
  predOrder : List ℕ
  numPredicates : ℕ
  runtimePredicateStart : ℕ
  runtimePredicateCount : ℕ
  runtimeGroupsRemoved : ℕ
  deriving DecidableEq

/-- What the catalog says of a group: the zone map of the predicate's column, and for a
predicate that probes it the bloom filter. -/
structure Tests (β γ : Type*) where
  zoneExcludes : β → γ → Bool
  probesBloom : β → Bool
  bloomExcludes : β → γ → Bool

variable {β γ : Type*}

namespace Tests

/-- One round of the loop of `pgcolumnar_native_group_can_match`. -/
def excluded (T : Tests β γ) (b : β) (g : γ) : Bool :=
  T.zoneExcludes b g || (T.probesBloom b && T.bloomExcludes b g)

end Tests

/-- `pgcolumnar_build_predicates`, given the predicates made from the scan keys. -/
def buildPredicates (keys : List (β × Bool)) : ReadState β where
  predicates := keys.map fun k => ⟨k.1, k.2, 0, false⟩
  predOrder := List.range keys.length
  numPredicates := keys.length
  runtimePredicateStart := 0
  runtimePredicateCount := 0
  runtimeGroupsRemoved := 0

/-- A bound of the join. -/
def runtimeBound (b : β) : SkipPredicate β := ⟨b, false, 0, true⟩

/-- `PgColumnarReadSetRuntimeRange`, given the two predicates made from the range, if two
were made. -/
def setRuntimeRange (s : ReadState β) : Option (β × β) → ReadState β
  | none => s
  | some (lo, hi) =>
    if s.runtimePredicateCount = 2 then
      { s with
        predicates := (s.predicates.set s.runtimePredicateStart (runtimeBound lo)).set
          (s.runtimePredicateStart + 1) (runtimeBound hi) }
    else
      let oldCount := s.numPredicates
      { s with
        predicates := s.predicates.take oldCount ++ [runtimeBound lo, runtimeBound hi]
        predOrder := s.predOrder.take oldCount ++ [oldCount, oldCount + 1]
        numPredicates := oldCount + 2
        runtimePredicateStart := oldCount
        runtimePredicateCount := 2 }

/-- `PgColumnarReadClearRuntimeRange`. -/
def clearRuntimeRange (s : ReadState β) : ReadState β :=
  if s.runtimePredicateCount = 0 then s
  else { s with numPredicates := s.runtimePredicateStart, runtimePredicateCount := 0 }

/-- One more group for the predicate. -/
def SkipPredicate.countExclusion (p : SkipPredicate β) : SkipPredicate β :=
  { p with excludes := p.excludes + 1 }

/-- The predicate `here` moves before the one ahead of it: it excludes more often, and it is
not a set behind a scalar. -/
def promotes (here ahead : SkipPredicate β) : Bool :=
  !(here.searchArray && !ahead.searchArray) && decide (ahead.excludes < here.excludes)

/-- The predicate at place `here` of the array has excluded a group. -/
def noteExclusion (s : ReadState β) (here : ℕ) : ReadState β :=
  { s with
    predicates := s.predicates.modify here SkipPredicate.countExclusion
    runtimeGroupsRemoved := s.runtimeGroupsRemoved +
      if (s.predicates[here]?).any (·.runtimeFilter) then 1 else 0 }

/-- Let the predicate `here`, after place `j` of the order, move to place `j`. -/
def transpose (s : ReadState β) (j here : ℕ) : ReadState β :=
  match s.predOrder[j]? with
  | none => s
  | some ahead =>
    match s.predicates[here]?, s.predicates[ahead]? with
    | some p, some q =>
      if promotes p q then { s with predOrder := (s.predOrder.set j here).set (j + 1) ahead } else s
    | _, _ => s

/-- `pgcolumnar_predicate_excluded`. -/
def predicateExcluded (s : ReadState β) (oi : ℕ) : ReadState β :=
  match s.predOrder[oi]? with
  | none => s
  | some here =>
    match oi with
    | 0 => noteExclusion s here
    | j + 1 => transpose (noteExclusion s here) j here

/-- The place in the order of the first predicate that excludes the group. -/
def firstExcluding (T : Tests β γ) (s : ReadState β) (g : γ) : Option ℕ :=
  (List.range s.numPredicates).find? fun oi =>
    (s.predOrder[oi]?).any fun p => (s.predicates[p]?).any fun pred => T.excluded pred.body g

/-- `pgcolumnar_native_group_can_match`. -/
def groupCanMatch (T : Tests β γ) (s : ReadState β) (g : γ) : Bool × ReadState β :=
  match firstExcluding T s g with
  | none => (true, s)
  | some oi => (false, predicateExcluded s oi)

inductive Action (β γ : Type*) where
  | setRange (built : Option (β × β))
  | clearRange
  | groupTest (g : γ)

def step (T : Tests β γ) (s : ReadState β) : Action β γ → ReadState β
  | .setRange built => setRuntimeRange s built
  | .clearRange => clearRuntimeRange s
  | .groupTest g => (groupCanMatch T s g).2

/-- The read state after the operations. -/
def after (T : Tests β γ) (keys : List (β × Bool)) (acts : List (Action β γ)) : ReadState β :=
  acts.foldl (step T) (buildPredicates keys)

/-! ### What is attached -/

/-- The range that is attached after one more operation. -/
def rangeStep (r : Option (β × β)) : Action β γ → Option (β × β)
  | .setRange (some b) => some b
  | .setRange none => r
  | .clearRange => none
  | .groupTest _ => r

/-- The range attached last and not detached since. -/
def runtimeRange (acts : List (Action β γ)) : Option (β × β) := acts.foldl rangeStep none

def boundsOf : Option (β × β) → List (β × Bool)
  | none => []
  | some (lo, hi) => [(lo, false), (hi, false)]

/-- The predicates attached: those of the scan keys and the bounds of the join. -/
def attached (keys : List (β × Bool)) (acts : List (Action β γ)) : List (β × Bool) :=
  keys ++ boundsOf (runtimeRange acts)

def SkipPredicate.key (p : SkipPredicate β) : β × Bool := (p.body, p.searchArray)

/-- The first entries of the order are the attached predicates, each once, and a group is
excluded exactly if one of them excludes it. -/
structure Faithful (T : Tests β γ) (s : ReadState β) (preds : List (β × Bool)) : Prop where
  contents : (s.predicates.take s.numPredicates).map SkipPredicate.key = preds
  order : (s.predOrder.take s.numPredicates).Perm (List.range preds.length)
  excludes : ∀ g, (groupCanMatch T s g).1 = false ↔ ∃ p ∈ preds, T.excluded p.1 g = true

/-- A test of the group moves no bound of the join before a scan predicate: where a bound is the
first to exclude the group and a scan predicate stands directly before it, the bound does not
exclude more often, this group counted. -/
def KeepsBehind (T : Tests β γ) (s : ReadState β) (g : γ) : Prop :=
  s.runtimePredicateCount ≠ 0 → ∀ j here ahead p q, firstExcluding T s g = some (j + 1) →
    s.predOrder[j + 1]? = some here → s.predOrder[j]? = some ahead →
    s.runtimePredicateStart ≤ here → ahead < s.runtimePredicateStart →
    s.predicates[here]? = some p → s.predicates[ahead]? = some q →
    promotes p.countExclusion q = false

/-! ### What holds however the order changes -/

variable {T : Tests β γ} {s : ReadState β} {keys : List (β × Bool)} {r : Option (β × β)}
  {preds : List (β × Bool)}

structure Shape (keys : List (β × Bool)) (r : Option (β × β)) (s : ReadState β) : Prop where
  contents : (s.predicates.take s.numPredicates).map SkipPredicate.key = keys ++ boundsOf r
  count : s.numPredicates = (keys ++ boundsOf r).length
  order : s.numPredicates ≤ s.predOrder.length
  runtime : r = none ∧ s.runtimePredicateCount = 0 ∨
    r ≠ none ∧ s.runtimePredicateCount = 2 ∧ s.runtimePredicateStart = keys.length

theorem length_take_append_le {δ : Type*} (l : List δ) (n : ℕ) (a b : δ) :
    (l.take n ++ [a, b]).length ≤ n + 2 := by
  rw [length_append, length_take]
  exact Nat.add_le_add_right (Nat.min_le_left n l.length) 2

theorem map_key_modify (l : List (SkipPredicate β)) (here : ℕ) :
    (l.modify here SkipPredicate.countExclusion).map SkipPredicate.key =
      l.map SkipPredicate.key := by
  apply ext_getElem?
  intro k
  rw [getElem?_map, getElem?_map, getElem?_modify]
  cases l[k]? with
  | none => rfl
  | some p => by_cases hk : here = k <;> simp [hk, SkipPredicate.key, SkipPredicate.countExclusion]

theorem transpose_spec (s : ReadState β) (j here : ℕ) : transpose s j here = s ∨
    ∃ ahead p q, s.predOrder[j]? = some ahead ∧ s.predicates[here]? = some p ∧
      s.predicates[ahead]? = some q ∧ promotes p q = true ∧
      transpose s j here = { s with predOrder := (s.predOrder.set j here).set (j + 1) ahead } := by
  unfold transpose
  split
  · exact .inl rfl
  · next ahead hahead =>
    split
    · next p q hp hq =>
      split
      · next hpromotes => exact .inr ⟨ahead, p, q, hahead, hp, hq, hpromotes, rfl⟩
      · exact .inl rfl
    · exact .inl rfl

/-- What an exclusion changes: counters, and the places of two neighbours, the second of which
excludes more often now. -/
theorem predicateExcluded_spec (s : ReadState β) (oi : ℕ) :
    (predicateExcluded s oi).numPredicates = s.numPredicates ∧
    (predicateExcluded s oi).runtimePredicateStart = s.runtimePredicateStart ∧
    (predicateExcluded s oi).runtimePredicateCount = s.runtimePredicateCount ∧
    (predicateExcluded s oi).predicates.map SkipPredicate.key = s.predicates.map SkipPredicate.key ∧
    ((predicateExcluded s oi).predOrder = s.predOrder ∨
      ∃ j here ahead p q, oi = j + 1 ∧ s.predOrder[j + 1]? = some here ∧
        s.predOrder[j]? = some ahead ∧ (noteExclusion s here).predicates[here]? = some p ∧
        (noteExclusion s here).predicates[ahead]? = some q ∧ promotes p q = true ∧
        (predicateExcluded s oi).predOrder = (s.predOrder.set j here).set (j + 1) ahead) := by
  unfold predicateExcluded
  split
  · exact ⟨rfl, rfl, rfl, rfl, .inl rfl⟩
  · next here hhere =>
    have hkey := map_key_modify s.predicates here
    split
    · exact ⟨rfl, rfl, rfl, hkey, .inl rfl⟩
    · next j =>
      obtain heq | ⟨ahead, p, q, hahead, hp, hq, hpromotes, heq⟩ :=
        transpose_spec (noteExclusion s here) j here
      · rw [heq]
        exact ⟨rfl, rfl, rfl, hkey, .inl rfl⟩
      · rw [heq]
        exact ⟨rfl, rfl, rfl, hkey,
          .inr ⟨j, here, ahead, p, q, rfl, hhere, hahead, hp, hq, hpromotes, rfl⟩⟩

theorem Shape.predicateExcluded (h : Shape keys r s) (oi : ℕ) :
    Shape keys r (predicateExcluded s oi) := by
  obtain ⟨hnum, hstart, hcount, hkeys, horder⟩ := predicateExcluded_spec s oi
  refine ⟨?_, ?_, ?_, ?_⟩
  · rw [hnum, map_take, hkeys, ← map_take]
    exact h.contents
  · rw [hnum]
    exact h.count
  · rw [hnum]
    obtain heq | ⟨j, here, ahead, p, q, -, -, -, -, -, -, heq⟩ := horder
    · rw [heq]
      exact h.order
    · rw [heq, length_set, length_set]
      exact h.order
  · rw [hcount, hstart]
    exact h.runtime

theorem Shape.length_predicates (h : Shape keys r s) : s.numPredicates ≤ s.predicates.length := by
  have hlen := congrArg List.length h.contents
  rw [length_map, length_take, ← h.count] at hlen
  omega

theorem Shape.setRange (h : Shape keys r s) (b : β × β) :
    Shape keys (some b) (setRuntimeRange s (some b)) := by
  obtain ⟨lo, hi⟩ := b
  have hcontents := h.contents
  have hcount := h.count
  have horder := h.order
  simp only [setRuntimeRange]
  rcases h.runtime with ⟨rfl, hrt⟩ | ⟨hr, hrt, hstart⟩
  · -- the bounds are appended to both arrays
    rw [boundsOf, append_nil] at hcontents hcount
    rw [if_neg (by rw [hrt]; decide)]
    refine ⟨?_, ?_, ?_, .inr ⟨by simp, rfl, hcount⟩⟩
    · show ((s.predicates.take s.numPredicates ++ [runtimeBound lo, runtimeBound hi]).take
        (s.numPredicates + 2)).map SkipPredicate.key = _
      rw [take_of_length_le (length_take_append_le _ _ _ _), map_append, hcontents]
      rfl
    · show s.numPredicates + 2 = _
      rw [hcount, length_append]
      rfl
    · show s.numPredicates + 2 ≤ (s.predOrder.take s.numPredicates ++ _).length
      rw [length_append, length_take, min_eq_left horder]
      exact le_refl _
  · -- the bounds are replaced in place
    obtain ⟨⟨lo', hi'⟩, rfl⟩ := Option.ne_none_iff_exists'.mp hr
    have hnum : s.numPredicates = keys.length + 2 := by
      rw [hcount, length_append]
      rfl
    rw [if_pos hrt]
    refine ⟨?_, ?_, horder, .inr ⟨by simp, hrt, hstart⟩⟩
    · show (((s.predicates.set s.runtimePredicateStart (runtimeBound lo)).set
        (s.runtimePredicateStart + 1) (runtimeBound hi)).take s.numPredicates).map _ = _
      rw [take_set, take_set, map_set, map_set, hcontents, hstart]
      apply ext_getElem?
      intro k
      simp only [getElem?_set, length_set, length_append, boundsOf, length_cons, length_nil]
      rcases lt_trichotomy k keys.length with hk | hk | hk
      · rw [if_neg (by omega), if_neg (by omega), getElem?_append_left hk, getElem?_append_left hk]
      · subst hk
        rw [if_neg (by omega), if_pos rfl, if_pos (by omega)]
        simp [runtimeBound, SkipPredicate.key]
      · by_cases hk1 : keys.length + 1 = k
        · subst hk1
          rw [if_pos rfl, if_pos (by omega)]
          simp [runtimeBound, SkipPredicate.key]
        · rw [if_neg hk1, if_neg (by omega), getElem?_eq_none, getElem?_eq_none]
          · simp
            omega
          · simp
            omega
    · show s.numPredicates = _
      rw [hnum, length_append]
      rfl

theorem Shape.clearRange (h : Shape keys r s) : Shape keys none (clearRuntimeRange s) := by
  unfold clearRuntimeRange
  rcases h.runtime with ⟨rfl, hrt⟩ | ⟨hr, hrt, hstart⟩
  · rw [if_pos hrt]
    exact h
  · rw [if_neg (by rw [hrt]; decide)]
    have hle : s.runtimePredicateStart ≤ s.numPredicates := by
      rw [hstart, h.count, length_append]
      exact le_add_right _ _
    refine ⟨?_, ?_, le_trans hle h.order, .inl ⟨rfl, rfl⟩⟩
    · show (s.predicates.take s.runtimePredicateStart).map SkipPredicate.key = _
      have htake : s.predicates.take s.runtimePredicateStart =
          (s.predicates.take s.numPredicates).take s.runtimePredicateStart := by
        rw [take_take, min_eq_left hle]
      rw [htake, map_take, h.contents, hstart, take_left', boundsOf, append_nil]
      rfl
    · show s.runtimePredicateStart = _
      rw [hstart, boundsOf, append_nil]

theorem Shape.step (h : Shape keys r s) (a : Action β γ) :
    Shape keys (rangeStep r a) (step T s a) := by
  cases a with
  | setRange built =>
    cases built with
    | none => exact h
    | some b => exact h.setRange b
  | clearRange => exact h.clearRange
  | groupTest g =>
    show Shape keys r (groupCanMatch T s g).2
    unfold groupCanMatch
    split
    · exact h
    · next oi _ => exact h.predicateExcluded oi

theorem after_concat (pre : List (Action β γ)) (a : Action β γ) :
    after T keys (pre ++ [a]) = Scan.step T (after T keys pre) a := by
  simp only [after, foldl_append, foldl_cons, foldl_nil]

theorem runtimeRange_concat (pre : List (Action β γ)) (a : Action β γ) :
    runtimeRange (pre ++ [a]) = rangeStep (runtimeRange pre) a := by
  simp only [runtimeRange, foldl_append, foldl_cons, foldl_nil]

/-- The array holds the attached predicates after every history. -/
theorem shape_after (T : Tests β γ) (keys : List (β × Bool)) (acts : List (Action β γ)) :
    Shape keys (runtimeRange acts) (after T keys acts) := by
  induction acts using List.reverseRecOn with
  | nil =>
    refine ⟨?_, ?_, ?_, .inl ⟨rfl, rfl⟩⟩
    · simp [after, buildPredicates, runtimeRange, boundsOf, SkipPredicate.key, Function.comp_def]
    · simp [after, buildPredicates, runtimeRange, boundsOf]
    · simp [after, buildPredicates]
  | append_singleton pre a ih =>
    rw [after_concat, runtimeRange_concat]
    exact ih.step a

/-! ### The order -/

/-- No bound of the join is among the entries that stay when it is detached. -/
def Clearable (s : ReadState β) : Prop :=
  s.runtimePredicateCount = 0 ∨
    ∀ p ∈ s.predOrder.take s.runtimePredicateStart, p < s.runtimePredicateStart

def Ordered (s : ReadState β) : Prop :=
  (s.predOrder.take s.numPredicates).Perm (List.range s.numPredicates)

theorem Ordered.predicateExcluded (h : Ordered s) {oi : ℕ} (hoi : oi < s.numPredicates) :
    Ordered (predicateExcluded s oi) := by
  obtain ⟨hnum, _, _, _, horder⟩ := predicateExcluded_spec s oi
  unfold Ordered
  rw [hnum]
  obtain heq | ⟨j, here, ahead, p, q, rfl, hhere, hahead, -, -, -, heq⟩ := horder
  · rw [heq]
    exact h
  · -- both places are among the first, so the swap stays within them
    obtain ⟨hlt, rfl⟩ := List.getElem?_eq_some_iff.mp hhere
    obtain ⟨hlt', rfl⟩ := List.getElem?_eq_some_iff.mp hahead
    rw [heq, take_set, take_set]
    refine List.Perm.trans ?_ h
    have hj : j < (s.predOrder.take s.numPredicates).length := by
      rw [length_take]
      omega
    have hj1 : j + 1 < (s.predOrder.take s.numPredicates).length := by
      rw [length_take]
      omega
    have hswap := set_set_perm hj hj1
    rw [getElem_take, getElem_take] at hswap
    exact hswap

theorem Ordered.setRange (h : Ordered s) (b : β × β) : Ordered (setRuntimeRange s (some b)) := by
  obtain ⟨lo, hi⟩ := b
  simp only [setRuntimeRange]
  split
  · exact h
  · show ((s.predOrder.take s.numPredicates ++ [s.numPredicates, s.numPredicates + 1]).take
      (s.numPredicates + 2)).Perm (List.range (s.numPredicates + 2))
    rw [take_of_length_le (length_take_append_le _ _ _ _), range_succ, range_succ, append_assoc]
    exact h.append_right _

theorem Ordered.clearRange (h : Ordered s) (hs : Shape keys r s) (hclear : Clearable s) :
    Ordered (clearRuntimeRange s) := by
  unfold clearRuntimeRange
  rcases hs.runtime with ⟨_, hrt⟩ | ⟨hr, hrt, hstart⟩
  · rw [if_pos hrt]
    exact h
  · rw [if_neg (by rw [hrt]; decide)]
    have hle : s.runtimePredicateStart ≤ s.numPredicates := by
      rw [hstart, hs.count, length_append]
      exact le_add_right _ _
    have hlt : ∀ p ∈ s.predOrder.take s.runtimePredicateStart, p < s.runtimePredicateStart := by
      rcases hclear with hzero | hlt
      · rw [hrt] at hzero
        cases hzero
      · exact hlt
    -- entries of a permutation that are all small enough are as many as there are
    have hnodup : (s.predOrder.take s.numPredicates).Nodup :=
      h.nodup_iff.mpr nodup_range
    have hsub : (s.predOrder.take s.runtimePredicateStart).Sublist
        (s.predOrder.take s.numPredicates) := by
      rw [← min_eq_left hle, ← take_take]
      exact take_sublist _ _
    have hsubset : s.predOrder.take s.runtimePredicateStart ⊆
        List.range s.runtimePredicateStart :=
      fun p hp => mem_range.mpr (hlt p hp)
    have hsp := subperm_of_subset (hnodup.sublist hsub) hsubset
    refine hsp.perm_of_length_le ?_
    rw [length_range, length_take]
    have := hs.order
    omega

/-- Bounds that are attached anew stand behind the scan predicates. -/
theorem Clearable.setRange (hclear : Clearable s) (h : Ordered s) (hs : Shape keys r s)
    (b : β × β) :
    Clearable (setRuntimeRange s (some b)) := by
  obtain ⟨lo, hi⟩ := b
  have horder := hs.order
  simp only [setRuntimeRange]
  split
  · next hrt => exact .inr (hclear.resolve_left (by rw [hrt]; decide))
  · refine .inr fun p hp => ?_
    change p ∈ (s.predOrder.take s.numPredicates ++ [_, _]).take s.numPredicates at hp
    rw [take_left' (by rw [length_take, min_eq_left horder])] at hp
    exact mem_range.mp (h.mem_iff.mp hp)

/-- An exclusion that moves no bound before a scan predicate. -/
theorem Clearable.predicateExcluded (hclear : Clearable s) {oi : ℕ} {g : γ}
    (hoi : firstExcluding T s g = some oi) (hkeeps : KeepsBehind T s g) :
    Clearable (predicateExcluded s oi) := by
  obtain ⟨-, hstart, hcount, -, horder⟩ := predicateExcluded_spec s oi
  unfold Clearable
  rw [hstart, hcount]
  by_cases hrt : s.runtimePredicateCount = 0
  · exact .inl hrt
  have hlt := hclear.resolve_left hrt
  refine .inr ?_
  obtain heq | ⟨j, here, ahead, p, q, rfl, hhere, hahead, hp, hq, hpromotes, heq⟩ := horder
  · rw [heq]
    exact hlt
  · rw [heq, take_set, take_set]
    by_cases hj : j < s.runtimePredicateStart
    · have hmem : ahead ∈ s.predOrder.take s.runtimePredicateStart :=
        mem_take_iff.mpr ⟨j, hj, hahead⟩
      have hahead_lt := hlt ahead hmem
      have hhere_lt : here < s.runtimePredicateStart := by
        by_contra hbound
        have hle : s.runtimePredicateStart ≤ here := le_of_not_gt hbound
        have hne : here ≠ ahead := by omega
        obtain ⟨p₀, hp₀, rfl⟩ := Option.map_eq_some_iff.mp
          ((getElem?_modify_eq _ _ _).symm.trans hp)
        have hq₀ := (getElem?_modify_ne _ _ hne).symm.trans hq
        rw [hkeeps hrt j here ahead p₀ q hoi hhere hahead hle hahead_lt hp₀ hq₀] at hpromotes
        cases hpromotes
      intro x hx
      obtain hx | rfl := mem_or_eq_of_mem_set hx
      · obtain hx | rfl := mem_or_eq_of_mem_set hx
        · exact hlt x hx
        · exact hhere_lt
      · exact hahead_lt
    · -- both places are behind
      have hlen : (s.predOrder.take s.runtimePredicateStart).length ≤ j := by
        rw [length_take]
        omega
      rw [set_eq_of_length_le hlen, set_eq_of_length_le (by omega)]
      exact hlt

/-- A group is excluded exactly if an attached predicate excludes it, as long as the order
names each of them. -/
theorem Ordered.canMatch (h : Ordered s) (hs : Shape keys r s) (g : γ) :
    (groupCanMatch T s g).1 = false ↔ ∃ p ∈ keys ++ boundsOf r, T.excluded p.1 g = true := by
  have hfirst : (groupCanMatch T s g).1 = false ↔ firstExcluding T s g ≠ none := by
    unfold groupCanMatch
    split
    · next hnone => simp [hnone]
    · next oi hsome => simp [hsome]
  rw [hfirst, ← hs.contents]
  unfold firstExcluding
  rw [Ne, find?_eq_none, not_forall]
  constructor
  · intro hex
    obtain ⟨oi, hoi⟩ := hex
    rw [Classical.not_imp, not_not, Option.any_eq_true] at hoi
    obtain ⟨hlt, p, hp, hpred⟩ := hoi
    obtain ⟨pred, hpred, hexcl⟩ := (Option.any_eq_true _ _).mp hpred
    have hmem : p ∈ s.predOrder.take s.numPredicates :=
      mem_take_iff.mpr ⟨oi, mem_range.mp hlt, hp⟩
    have hp' := mem_range.mp (h.mem_iff.mp hmem)
    refine ⟨pred.key, mem_map_of_mem ?_, hexcl⟩
    exact mem_take_iff.mpr ⟨p, hp', hpred⟩
  · intro hex
    obtain ⟨k, hk, hexcl⟩ := hex
    obtain ⟨pred, hpred, rfl⟩ := mem_map.mp hk
    obtain ⟨p, hp, hpred⟩ := mem_take_iff.mp hpred
    obtain ⟨oi, hoi, horder⟩ := mem_take_iff.mp (h.mem_iff.mpr (mem_range.mpr hp))
    refine ⟨oi, ?_⟩
    rw [Classical.not_imp, not_not]
    refine ⟨mem_range.mpr hoi, (Option.any_eq_true _ _).mpr ⟨p, horder, ?_⟩⟩
    exact (Option.any_eq_true _ _).mpr ⟨pred, hpred, hexcl⟩

theorem faithful_of_ordered {acts : List (Action β γ)} (h : Ordered (after T keys acts)) :
    Faithful T (after T keys acts) (attached keys acts) := by
  have hs := shape_after T keys acts
  refine ⟨hs.contents, ?_, fun g => h.canMatch hs g⟩
  rw [attached, ← hs.count]
  exact h

theorem ordered_step {acts : List (Action β γ)} (a : Action β γ) (h : Ordered (after T keys acts))
    (hclear : Clearable (after T keys acts))
    (ha : ∀ g, a = .groupTest g → KeepsBehind T (after T keys acts) g) :
    Ordered (step T (after T keys acts) a) ∧ Clearable (step T (after T keys acts) a) := by
  have hs := shape_after T keys acts
  cases a with
  | setRange built =>
    cases built with
    | none => exact ⟨h, hclear⟩
    | some b => exact ⟨h.setRange b, hclear.setRange h hs b⟩
  | clearRange =>
    refine ⟨h.clearRange hs hclear, ?_⟩
    show Clearable (clearRuntimeRange _)
    unfold clearRuntimeRange
    split
    · exact hclear
    · exact .inl rfl
  | groupTest g =>
    show Ordered (groupCanMatch T _ g).2 ∧ Clearable (groupCanMatch T _ g).2
    unfold groupCanMatch
    split
    · exact ⟨h, hclear⟩
    · next oi hoi =>
      exact ⟨h.predicateExcluded (mem_range.mp (mem_of_find?_eq_some hoi)),
        hclear.predicateExcluded hoi (ha g rfl)⟩

/-- **The order is that of the attached predicates** in every state of a history in which no test
moves a bound of the join before a scan predicate. -/
theorem faithful_of_keepsBehind (T : Tests β γ) (keys : List (β × Bool)) (acts : List (Action β γ))
    (h : ∀ pre g, pre ++ [.groupTest g] <+: acts → KeepsBehind T (after T keys pre) g) :
    ∀ pre, pre <+: acts → Faithful T (after T keys pre) (attached keys pre) := by
  have hordered : ∀ pre, pre <+: acts →
      Ordered (after T keys pre) ∧ Clearable (after T keys pre) := by
    intro pre
    induction pre using List.reverseRecOn with
    | nil =>
      intro _
      refine ⟨?_, .inl rfl⟩
      unfold Ordered after buildPredicates
      simp only [foldl_nil]
      rw [take_of_length_le (by simp)]
    | append_singleton pre a ih =>
      intro hpre
      obtain ⟨hord, hclear⟩ := ih ((prefix_append _ _).trans hpre)
      rw [after_concat]
      refine ordered_step a hord hclear ?_
      rintro g rfl
      exact h pre g hpre
  exact fun pre hpre => faithful_of_ordered (hordered pre hpre).1

/-! A scan predicate `col ≤ 100`, and a join whose build side holds the values 200 to 300. -/

inductive Bound where
  | atLeast (n : ℕ)
  | atMost (n : ℕ)
  deriving DecidableEq

/-- The zone map of a group is its least and its greatest value. -/
def zoneTests : Tests Bound (ℕ × ℕ) where
  zoneExcludes b g :=
    match b with
    | .atLeast n => decide (g.2 < n)
    | .atMost n => decide (n < g.1)
  probesBloom _ := false
  bloomExcludes _ _ := false

/-- The bounds are attached, exclude a group of values up to 50, and are detached. -/
def rescan : List (Action Bound (ℕ × ℕ)) :=
  [.setRange (some (.atLeast 200, .atMost 300)), .groupTest (0, 50), .clearRange]

/-- A group that the scan predicate excludes comes first, so the bound does not pass it. -/
def keptRescan : List (Action Bound (ℕ × ℕ)) := .groupTest (150, 160) :: rescan

theorem faithful_of_keepsBehind_keptRescan :
    Faithful zoneTests (after zoneTests [(Bound.atMost 100, false)] keptRescan)
      (attached [(Bound.atMost 100, false)] keptRescan) := by
  refine faithful_of_keepsBehind zoneTests _ keptRescan (fun pre g hpre => ?_) _ (prefix_refl _)
  rcases pre with _ | ⟨a, _ | ⟨b, _ | ⟨c, _ | ⟨d, pre⟩⟩⟩⟩
  · exact fun hcount => absurd rfl hcount
  · simp [keptRescan, rescan] at hpre
  · simp only [keptRescan, rescan, cons_append, nil_append, cons_prefix_cons] at hpre
    obtain ⟨rfl, rfl, hg, -⟩ := hpre
    cases hg
    intro _ j here ahead p q hfirst hhere hahead _ _ hp hq
    obtain rfl : j = 0 := succ.inj (Option.some.inj hfirst.symm)
    cases hhere
    cases hahead
    cases hp
    cases hq
    rfl
  · simp [keptRescan, rescan] at hpre
  · have hlen := hpre.length_le
    simp only [keptRescan, rescan, length_append, length_cons, length_nil] at hlen
    omega

/-- The next scan skips the group for the bound of the last join, and has lost its own
predicate. -/
theorem stale_bound : attached [(Bound.atMost 100, false)] rescan = [(Bound.atMost 100, false)] ∧
    (after zoneTests [(Bound.atMost 100, false)] rescan).numPredicates = 1 ∧
    (after zoneTests [(Bound.atMost 100, false)] rescan).predOrder.take 1 = [1] ∧
    (groupCanMatch zoneTests (after zoneTests [(Bound.atMost 100, false)] rescan) (0, 50)).1 =
      false ∧
    zoneTests.excluded (.atMost 100) (0, 50) = false ∧
    ¬ Faithful zoneTests (after zoneTests [(Bound.atMost 100, false)] rescan)
      (attached [(Bound.atMost 100, false)] rescan) := by
  refine ⟨by decide, by decide, by decide, by decide, by decide, ?_⟩
  intro h
  have hex := (h.excludes (0, 50)).mp (by decide)
  revert hex
  decide

end PgColumnar.Scan
