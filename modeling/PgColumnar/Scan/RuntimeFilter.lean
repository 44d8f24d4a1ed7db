import PgColumnar.Lib.Run
import PgColumnar.Scan.PredicateOrder
import PgColumnar.Zone.Bloom
import PgColumnar.Zone.Btree

/-!
# Runtime join filters

A coordinator wraps a hash join (`columnar_runtime_filter.c`).  Before the join runs, the
coordinator drains the build side into a spool, from which the join reads it later, and
notes what the keys are on the way: their hashes, their least and their greatest.  From
these it makes a Bloom filter and two bounds, which the scan of the fact table then tests
on its rows and on its groups.  A rescan detaches both and forgets what was noted.

A rescan tells neither the join nor the source of the tap which parameters have changed.  So
the join may keep its hash table, and the source what it returned before.

The predicates that the query itself has on the fact table are parameters, and so is what
the catalog says of its groups and vectors.

## Main definitions

* `prepareFilter`, `runtimeBloomMatch` — the filter of a build, and its test.
* `joinStep` — rescans of the join and its build side.
* `JoinInv`, `UpToDate` — the filter is that of what was drained, and that is the build.

## Main results

* `runtimeFilter_sound` — a fact key with a partner is not rejected.
-/

namespace PgColumnar.Scan

open Bloom (Hash)
open Compare List Catalog

/-- What is fixed for a join when it is planned: fact keys are of type `α`, build keys of
type `δ`, and a row of the build side with a null key has none. -/
structure RuntimeJoin (α δ ρ : Type*) where
  key : ρ → Option δ
  compareFn : δ → δ → ℤ
  intervalAvailable : Bool
  cmpFn : α → δ → ℤ
  /-- `pgcolumnar_make_predicates` makes both bounds into predicates. -/
  makesBounds : Bool
  buildHashFn : Option (δ → Hash)
  factHashFn : Option (α → Hash)
  hyperLogLog : List Hash → ℕ

/-- `PgColumnarRuntimeTapState`; `range` is the minimum and the maximum if `hasValues`. -/
structure RuntimeTap (δ ρ : Type*) where
  store : List ρ
  hashes : List Hash
  range : Option (δ × δ)
  buildRows : ℕ
  replay : Bool

/-- `PgColumnarRuntimeFilterState` -/
structure RuntimeFilter where
  bloom : Option (List Bytes.Byte)
  bloomEnabled : Bool
  hasValues : Bool
  buildEmpty : Bool
  rangeAttached : Bool
  prepared : Bool

variable {κ α δ ρ γ : Type*} {op : α → δ → Prop}

/-! ### The tap -/

/-- A tap that has drained nothing, as it is begun and as a reset leaves it. -/
def emptyTap : RuntimeTap δ ρ := ⟨[], [], none, 0, false⟩

/-- `PgColumnarRuntimeTapAddHash` -/
def tapAddHash (J : RuntimeJoin α δ ρ) (t : RuntimeTap δ ρ) (value : δ) : RuntimeTap δ ρ :=
  match J.buildHashFn with
  | none => t
  | some hashFn => { t with hashes := t.hashes ++ [hashFn value] }

/-- `PgColumnarRuntimeTapAddValue` -/
def tapAddValue (J : RuntimeJoin α δ ρ) (t : RuntimeTap δ ρ) (value : δ) : RuntimeTap δ ρ :=
  if !J.intervalAvailable then t
  else
    match t.range with
    | none => { t with range := some (value, value) }
    | some (minimum, maximum) =>
      { t with
        range := some (if J.compareFn value minimum < 0 then value else minimum,
          if 0 < J.compareFn value maximum then value else maximum) }

/-- One round of the loop of `PgColumnarDrainRuntimeTap`. -/
def drainRow (J : RuntimeJoin α δ ρ) (t : RuntimeTap δ ρ) (row : ρ) : RuntimeTap δ ρ :=
  let t := { t with store := t.store ++ [row] }
  match J.key row with
  | none => t
  | some value => tapAddHash J (tapAddValue J { t with buildRows := t.buildRows + 1 } value) value

/-- `PgColumnarDrainRuntimeTap` -/
def drainTap (J : RuntimeJoin α δ ρ) (t : RuntimeTap δ ρ) (rows : List ρ) : RuntimeTap δ ρ :=
  { rows.foldl (drainRow J) t with replay := true }

/-- `PgColumnarExecRuntimeTap`, to the end: what the join reads as its build side. -/
def replayTap (t : RuntimeTap δ ρ) : Option (List ρ) := if t.replay then some t.store else none

/-! ### The coordinator -/

/-- A predicate of the fact scan: one of the query's, or a bound of the build side. -/
inductive Body (κ δ : Type*) where
  | own (k : κ)
  | bound (p : Zone.Predicate δ)

/-- The coordinator, its tap, and the scan of the fact table. -/
structure JoinState (κ δ ρ : Type*) where
  tap : RuntimeTap δ ρ
  filter : RuntimeFilter
  runtimeBloom : Bool
  readState : ReadState (Body κ δ)
  /-- The rows in the hash table of the join. -/
  table : Option (List ρ)

/-- The filter before it is prepared. -/
def emptyFilter : RuntimeFilter := ⟨none, false, false, false, false, false⟩

/-- The bounds that `PgColumnarReadSetRuntimeRange` makes from a range. -/
def rangeBounds (J : RuntimeJoin α δ ρ) (range : Option (δ × δ)) : Option (Body κ δ × Body κ δ) :=
  if J.makesBounds then
    range.map fun r => (.bound ⟨.greaterEqual, r.1, false, [], nofun⟩,
      .bound ⟨.lessEqual, r.2, false, [], nofun⟩)
  else none

@[simp]
theorem rangeBounds_none (J : RuntimeJoin α δ ρ) :
    rangeBounds J none = (none : Option (Body κ δ × Body κ δ)) := by
  unfold rangeBounds
  split <;> rfl

/-- What `PgColumnarPrepareRuntimeFilter` sets before it attaches. -/
def readyFilter (J : RuntimeJoin α δ ρ) (t : RuntimeTap δ ρ) (f : RuntimeFilter) : RuntimeFilter :=
  let f := { f with hasValues := t.range.isSome, buildEmpty := decide (t.buildRows = 0) }
  let f :=
    if J.factHashFn.isSome && J.buildHashFn.isSome && decide (0 < t.hashes.length) then
      let built := Bloom.bloomBuild J.hyperLogLog t.hashes
      { f with bloom := built, bloomEnabled := built.isSome }
    else f
  { f with prepared := true }

/-- `PgColumnarPrepareRuntimeFilter`, where the build side returns `rows`. -/
def prepareFilter (J : RuntimeJoin α δ ρ) (rows : List ρ) (s : JoinState κ δ ρ) : JoinState κ δ ρ :=
  let tap := drainTap J s.tap rows
  let f := readyFilter J tap s.filter
  let s := { s with tap := tap, filter := f, runtimeBloom := true }
  if tap.range.isSome && J.intervalAvailable then
    { s with
      filter := { f with rangeAttached := (rangeBounds (κ := κ) J tap.range).isSome }
      readState := setRuntimeRange s.readState (rangeBounds J tap.range) }
  else s

/-- `PgColumnarReScanRuntimeFilter`; `PgColumnarResetRuntimeTap` for the tap.  The join keeps a
hash table of one batch if it is not told of a changed parameter. -/
def rescanFilter (s : JoinState κ δ ρ) (keepsTable : Bool) : JoinState κ δ ρ where
  table := if keepsTable then s.table else none
  runtimeBloom := false
  readState := clearRuntimeRange s.readState
  tap := emptyTap
  filter := emptyFilter

/-- `PgColumnarRuntimeBloomMatch`; without a hash function the Bloom filter is not enabled. -/
def runtimeBloomMatch (J : RuntimeJoin α δ ρ) (f : RuntimeFilter) (value : Option α) : Bool :=
  if !f.prepared then true
  else
    match value with
    | none => false
    | some v =>
      if f.buildEmpty then false
      else if !f.bloomEnabled then true
      else
        J.factHashFn.all fun hashFn =>
          f.bloom.all fun bloom => Bloom.bloomProbe bloom (hashFn v) == some true

/-- `pgcolumnar_runtime_bloom_keeps` -/
def runtimeBloomKeeps (J : RuntimeJoin α δ ρ) (s : JoinState κ δ ρ) (value : Option α) : Bool :=
  !s.runtimeBloom || runtimeBloomMatch J s.filter value

/-! ### The fact scan -/

/-- What the tests of the fact scan read: for the query's own predicates the tests
themselves, for a bound the extremes of the fact column in a group or a vector. -/
structure FactScan (κ α γ : Type*) where
  own : Tests κ γ
  keyZone : γ → Option (α × α)
  /-- What an own predicate says of a value, if it is about the fact column. -/
  onKey : κ → Option (α → Bool)

/-- The tests of own predicates and bounds.  A bound is no equality, so it has no hash. -/
def FactScan.tests (F : FactScan κ α γ) (J : RuntimeJoin α δ ρ) : Tests (Body κ δ) γ where
  zoneExcludes
    | .own k, g => F.own.zoneExcludes k g
    | .bound p, g => (F.keyZone g).any fun z => Zone.extremesExclude J.cmpFn p z.1 z.2
  probesBloom
    | .own k => F.own.probesBloom k
    | .bound _ => false
  bloomExcludes
    | .own k, g => F.own.bloomExcludes k g
    | .bound _, _ => false

/-- The test of `pgcolumnar_native_build_skipvec`, given what the catalog says of a vector. -/
def vectorSkipped (F : FactScan κ α γ) (J : RuntimeJoin α δ ρ) (s : ReadState (Body κ δ))
    (vector : γ) : Bool :=
  (s.predicates.take s.numPredicates).any fun p => (F.tests J).zoneExcludes p.body vector

/-- `native_value_satisfies` -/
def valueSatisfies (cmpFn : α → δ → ℤ) (pred : Zone.Predicate δ) (v : α) : Bool :=
  if pred.searchArray then pred.arrayValues.any fun b => decide (cmpFn v b = 0)
  else
    match pred.strategy with
    | .less => decide (cmpFn v pred.compareValue < 0)
    | .lessEqual => decide (cmpFn v pred.compareValue ≤ 0)
    | .equal => decide (cmpFn v pred.compareValue = 0)
    | .greaterEqual => decide (0 ≤ cmpFn v pred.compareValue)
    | .greater => decide (0 < cmpFn v pred.compareValue)

/-- What a predicate says of a value of the fact column, if it is about that column. -/
def keyTest (F : FactScan κ α γ) (J : RuntimeJoin α δ ρ) : Body κ δ → Option (α → Bool)
  | .own k => F.onKey k
  | .bound p => some (valueSatisfies J.cmpFn p)

/-- The round of `pgcolumnar_native_refine_skipvec` for the fact column: no value of the
vector satisfies all predicates on the column. -/
def vectorRuledOut (F : FactScan κ α γ) (J : RuntimeJoin α δ ρ) (s : ReadState (Body κ δ))
    (values : List α) : Bool :=
  let tests := (s.predicates.take s.numPredicates).filterMap fun p => keyTest F J p.body
  !tests.isEmpty && !values.any fun v => tests.all fun test => test v

inductive JoinEvent (ρ γ : Type*) where
  /-- The build side has the rows `rows`; its plan, if it is run, returns `drained`. -/
  | exec (rows drained : List ρ)
  | groupTest (g : γ)
  | rescan (keepsTable : Bool)

/-- The join reads the spool, if it has no hash table. -/
def runJoin (s : JoinState κ δ ρ) : JoinState κ δ ρ :=
  { s with table := s.table.or (replayTap s.tap) }

/-- `PgColumnarExecRuntimeFilter` drains the build side if it has not, and runs the join
unless the build side is empty.  The join then makes the fact scan test groups. -/
def joinStep (J : RuntimeJoin α δ ρ) (F : FactScan κ α γ) (s : JoinState κ δ ρ) :
    JoinEvent ρ γ → Option (JoinState κ δ ρ)
  | .exec _ drained =>
    let s := if s.filter.prepared then s else prepareFilter J drained s
    some (if s.filter.buildEmpty then s else runJoin s)
  | .groupTest g =>
    if s.filter.prepared && !s.filter.buildEmpty then
      some { s with readState := (groupCanMatch (F.tests J) s.readState g).2 }
    else none
  | .rescan keepsTable => some (rescanFilter s keepsTable)

/-- The coordinator and its fact scan before they run. -/
def beginJoin (keys : List (κ × Bool)) : JoinState κ δ ρ where
  tap := emptyTap
  filter := emptyFilter
  runtimeBloom := false
  readState := buildPredicates (keys.map fun k => (.own k.1, k.2))
  table := none

def buildStep (build : Option (List ρ)) : JoinEvent ρ γ → Option (List ρ)
  | .exec rows _ => some (build.getD rows)
  | .groupTest _ => build
  | .rescan _ => none

/-- The rows of the build side when the join was run first since its last rescan. -/
def currentBuild (events : List (JoinEvent ρ γ)) : Option (List ρ) := events.foldl buildStep none

/-- When the build side is drained, what is drained has its rows, and those of a hash table
that the join has kept. -/
def UpToDate (s : JoinState κ δ ρ) : JoinEvent ρ γ → Prop
  | .exec rows drained => s.filter.prepared = false →
    rows ⊆ drained ∧ ∀ t ∈ s.table, t ⊆ drained
  | _ => True

/-! ### What is assumed and what is proved -/

/-- The comparisons go with the operator: keys that it calls equal compare equal, and the
comparison of a fact key with a build key follows the order of both types. -/
structure OrderConsistent (J : RuntimeJoin α δ ρ) (factCmp : α → α → ℤ) (op : α → δ → Prop) :
    Prop where
  total : TotalCmp J.compareFn
  fact : Agrees factCmp J.cmpFn
  build : Agrees J.compareFn fun b a => -J.cmpFn a b
  equal : ∀ a b, op a b → J.cmpFn a b = 0

/-- The hash and comparison procedures in use are consistent with the join operator. -/
structure Consistent (J : RuntimeJoin α δ ρ) (factCmp : α → α → ℤ) (op : α → δ → Prop) : Prop where
  order : J.intervalAvailable = true → OrderConsistent J factCmp op
  hash : ∀ f ∈ J.factHashFn, ∀ h ∈ J.buildHashFn, ∀ a b, op a b → f a = h b

/-- The extremes that the catalog has of the group or vector are on both sides of the key. -/
def Within (F : FactScan κ α γ) (factCmp : α → α → ℤ) (g : γ) (a : α) : Prop :=
  ∀ z ∈ F.keyZone g, factCmp z.1 a ≤ 0 ∧ factCmp a z.2 ≤ 0

/-- The join runs, its Bloom filter lets the key pass, and what is skipped with the key in
it is skipped for a predicate of the query. -/
structure NotRejected (J : RuntimeJoin α δ ρ) (F : FactScan κ α γ) (factCmp : α → α → ℤ)
    (keys : List (κ × Bool)) (s : JoinState κ δ ρ) (a : α) : Prop where
  runs : s.filter.buildEmpty = false
  bloom : runtimeBloomKeeps J s (some a) = true
  group : ∀ g, Within F factCmp g a → (groupCanMatch (F.tests J) s.readState g).1 = false →
    ∃ k ∈ keys, F.own.excluded k.1 g = true
  vector : ∀ v, Within F factCmp v a → vectorSkipped F J s.readState v = true →
    ∃ k ∈ keys, F.own.zoneExcludes k.1 v = true
  values : ∀ vals, a ∈ vals → vectorRuledOut F J s.readState vals = true →
    ∃ k ∈ keys, ∃ test ∈ F.onKey k.1, test a = false

instance [DecidableEq ρ] (s : JoinState κ δ ρ) :
    ∀ e : JoinEvent ρ γ, Decidable (UpToDate s e)
  | .exec _ _ => inferInstanceAs (Decidable (_ → _ ∧ _))
  | .groupTest _ => isTrue trivial
  | .rescan _ => isTrue trivial

variable {J : RuntimeJoin α δ ρ} {F : FactScan κ α γ} {factCmp : α → α → ℤ} {keys : List (κ × Bool)}
  {rows : List ρ} {s : JoinState κ δ ρ}

/-- Procedures of one type for both keys, and one total order. -/
theorem orderConsistent_of_total {J : RuntimeJoin α α ρ} {op : α → α → Prop}
    (htotal : TotalCmp J.compareFn) (hcmp : J.cmpFn = J.compareFn)
    (hequal : ∀ a b, op a b → J.compareFn a b = 0) : OrderConsistent J J.compareFn op where
  total := htotal
  fact := by
    rw [hcmp]
    exact htotal.agrees
  build := by
    intro b b' a hbb
    have hagrees := htotal.agrees b b' a hbb
    rw [hcmp, Int.sign_neg, Int.sign_neg, ← htotal.swap, ← htotal.swap]
    exact hagrees
  equal := by
    rw [hcmp]
    exact hequal

/-! ### What the tap notes -/

/-- The range covers the keys; without a range there is none. -/
def Covers (cmp : δ → δ → ℤ) (vals : List δ) : Option (δ × δ) → Prop
  | none => vals = []
  | some r => ∀ b ∈ vals, cmp r.1 b ≤ 0 ∧ cmp b r.2 ≤ 0

/-- The tap has noted the keys of the rows. -/
structure TapOf (J : RuntimeJoin α δ ρ) (rows : List ρ) (t : RuntimeTap δ ρ) : Prop where
  store : t.store = rows
  buildRows : t.buildRows = (rows.filterMap J.key).length
  hashes : ∀ h ∈ J.buildHashFn, t.hashes = (rows.filterMap J.key).map h
  noHashes : J.buildHashFn = none → t.hashes = []
  covers : J.intervalAvailable = true → TotalCmp J.compareFn →
    Covers J.compareFn (rows.filterMap J.key) t.range
  noRange : J.intervalAvailable = false → t.range = none

theorem tapOf_empty : TapOf J [] (emptyTap : RuntimeTap δ ρ) :=
  ⟨rfl, rfl, fun _ _ => rfl, fun _ => rfl, fun _ _ => rfl, fun _ => rfl⟩

/-- The new minimum is below the old one and below the value. -/
theorem covers_extend {cmp : δ → δ → ℤ} (hc : TotalCmp cmp) {vals : List δ} {r : δ × δ} {value : δ}
    (h : Covers cmp vals (some r)) :
    Covers cmp (vals ++ [value]) (some (if cmp value r.1 < 0 then value else r.1,
      if 0 < cmp value r.2 then value else r.2)) := by
  have hself : cmp value value ≤ 0 := le_of_eq (hc.self value)
  have hlow : ∀ b, cmp r.1 b ≤ 0 ∨ b = value →
      cmp (if cmp value r.1 < 0 then value else r.1) b ≤ 0 := by
    intro b hb
    split
    · next hlt =>
      rcases hb with hb | rfl
      · exact hc.trans _ _ _ (le_of_lt hlt) hb
      · exact hself
    · next hge =>
      rcases hb with hb | rfl
      · exact hb
      · exact hc.le_swap.mpr (not_lt.mp hge)
  have hhigh : ∀ b, cmp b r.2 ≤ 0 ∨ b = value →
      cmp b (if 0 < cmp value r.2 then value else r.2) ≤ 0 := by
    intro b hb
    split
    · next hgt =>
      rcases hb with hb | rfl
      · exact hc.trans _ _ _ hb (hc.le_swap.mpr (le_of_lt hgt))
      · exact hself
    · next hle =>
      rcases hb with hb | rfl
      · exact hb
      · exact not_lt.mp hle
  intro b hb
  rcases mem_append.mp hb with hb | hb
  · exact ⟨hlow b (.inl (h b hb).1), hhigh b (.inl (h b hb).2)⟩
  · exact ⟨hlow b (.inr (mem_singleton.mp hb)), hhigh b (.inr (mem_singleton.mp hb))⟩

variable {t : RuntimeTap δ ρ}

theorem TapOf.drainRow (h : TapOf J rows t) (row : ρ) :
    TapOf J (rows ++ [row]) (drainRow J t row) := by
  have hkeys : (rows ++ [row]).filterMap J.key = rows.filterMap J.key ++ (J.key row).toList := by
    rw [filterMap_append, filterMap_cons, filterMap_nil]
    cases J.key row <;> rfl
  unfold Scan.drainRow
  cases hkey : J.key row with
  | none =>
    rw [hkey, Option.toList_none, append_nil] at hkeys
    have hstore : t.store ++ [row] = rows ++ [row] := by rw [h.store]
    constructor
    · exact hstore
    · rw [hkeys]
      exact h.buildRows
    · rw [hkeys]
      exact h.hashes
    · exact h.noHashes
    · rw [hkeys]
      exact h.covers
    · exact h.noRange
  | some value =>
    rw [hkey, Option.toList_some] at hkeys
    -- `tapAddHash` is about the hashes only, `tapAddValue` about the range only
    have hstore : ∀ t : RuntimeTap δ ρ, (tapAddHash J t value).store = t.store ∧
        (tapAddHash J t value).buildRows = t.buildRows ∧
          (tapAddHash J t value).range = t.range := by
      intro t
      unfold tapAddHash
      split <;> exact ⟨rfl, rfl, rfl⟩
    have hvalue : ∀ t : RuntimeTap δ ρ, (tapAddValue J t value).store = t.store ∧
        (tapAddValue J t value).buildRows = t.buildRows ∧
        (tapAddValue J t value).hashes = t.hashes := by
      intro t
      unfold tapAddValue
      split
      · exact ⟨rfl, rfl, rfl⟩
      · split <;> exact ⟨rfl, rfl, rfl⟩
    constructor
    · rw [(hstore _).1, (hvalue _).1, h.store]
    · rw [(hstore _).2.1, (hvalue _).2.1, hkeys, length_append, ← h.buildRows]
      rfl
    · intro hashFn hmem
      have hold := h.hashes hashFn hmem
      simp only [tapAddHash, Option.mem_def.mp hmem]
      rw [(hvalue _).2.2, hkeys, map_append, ← hold]
      rfl
    · intro hnone
      have hold := h.noHashes hnone
      simp only [tapAddHash, hnone]
      rw [(hvalue _).2.2, hold]
    · intro hint htotal
      have hold := h.covers hint htotal
      rw [(hstore _).2.2, hkeys]
      simp only [tapAddValue, hint, Bool.not_true, if_neg Bool.false_ne_true]
      cases hrange : t.range with
      | none =>
        rw [hrange] at hold
        rw [show rows.filterMap J.key = [] from hold]
        intro b hb
        rw [mem_singleton.mp hb]
        exact ⟨le_of_eq (htotal.self value), le_of_eq (htotal.self value)⟩
      | some r =>
        rw [hrange] at hold
        exact covers_extend htotal hold
    · intro hint
      have hold := h.noRange hint
      rw [(hstore _).2.2]
      simp only [tapAddValue, hint, Bool.not_false, if_true, hold]

theorem TapOf.foldl {before : List ρ} (h : TapOf J before t) (rows : List ρ) :
    TapOf J (before ++ rows) (rows.foldl (Scan.drainRow J) t) := by
  induction rows generalizing before t with
  | nil =>
    rw [append_nil]
    exact h
  | cons row rows ih =>
    have hnext := ih (h.drainRow row)
    rw [append_assoc] at hnext
    exact hnext

theorem tapOf_drainTap (J : RuntimeJoin α δ ρ) (rows : List ρ) :
    TapOf J rows (drainTap J emptyTap rows) := by
  have h := (tapOf_empty (J := J)).foldl rows
  rw [nil_append] at h
  exact ⟨h.store, h.buildRows, h.hashes, h.noHashes, h.covers, h.noRange⟩

/-! ### What the read state keeps

After the bounds are detached the order may still name them, so only an order that names
no predicate outside both arrays is kept.  Nothing is tested until they are attached
again. -/

section ReadState

variable {β : Type*} {T : Tests β γ} {scanKeys : List (β × Bool)} {n : ℕ} {r : Option (β × β)}
  {rs : ReadState β}

structure Bounded (scanKeys : List (β × Bool)) (n : ℕ) (r : Option (β × β)) (rs : ReadState β) :
    Prop where
  shape : Shape scanKeys r rs
  order : ∀ p ∈ rs.predOrder.take rs.numPredicates, p < scanKeys.length + n

theorem bounded_buildPredicates (scanKeys : List (β × Bool)) (n : ℕ) :
    Bounded scanKeys n none (buildPredicates scanKeys) := by
  constructor
  · exact shape_after (⟨fun _ _ => false, fun _ => false, fun _ (_ : Unit) => false⟩ : Tests β Unit)
      scanKeys []
  · intro p hp
    have hlt := mem_range.mp (mem_of_mem_take hp)
    omega

theorem Bounded.clearRange (h : Bounded scanKeys n r rs) :
    Bounded scanKeys n none (clearRuntimeRange rs) := by
  refine ⟨h.shape.clearRange, ?_⟩
  unfold clearRuntimeRange
  split
  · exact h.order
  · next hcount =>
    have hle : rs.runtimePredicateStart ≤ rs.numPredicates := by
      rcases h.shape.runtime with ⟨_, hzero⟩ | ⟨_, _, hstart⟩
      · exact absurd hzero hcount
      · rw [hstart, h.shape.count, length_append]
        exact Nat.le_add_right _ _
    intro p hp
    exact h.order p (take_subset_take_left _ hle hp)

theorem Bounded.setRange (h : Bounded scanKeys 2 r rs) (b : β × β) :
    Bounded scanKeys 2 (some b) (setRuntimeRange rs (some b)) := by
  refine ⟨h.shape.setRange b, ?_⟩
  simp only [setRuntimeRange]
  split
  · exact h.order
  · next hcount =>
    have hnum : rs.numPredicates = scanKeys.length := by
      rcases h.shape.runtime with ⟨rfl, _⟩ | ⟨_, htwo, _⟩
      · rw [h.shape.count, boundsOf, append_nil]
      · exact absurd htwo hcount
    intro p hp
    rcases mem_append.mp (mem_of_mem_take hp) with hp | hp
    · exact h.order p hp
    · simp only [mem_cons, not_mem_nil, or_false] at hp
      omega

theorem Bounded.groupTest (h : Bounded scanKeys n r rs) (T : Tests β γ) (g : γ) :
    Bounded scanKeys n r (groupCanMatch T rs g).2 := by
  unfold groupCanMatch
  split
  · exact h
  · next oi hoi =>
    have hlt : oi < rs.numPredicates := mem_range.mp (mem_of_find?_eq_some hoi)
    obtain ⟨hnum, _, _, _, horder⟩ := predicateExcluded_spec rs oi
    refine ⟨h.shape.predicateExcluded oi, ?_⟩
    show ∀ p ∈ (predicateExcluded rs oi).predOrder.take (predicateExcluded rs oi).numPredicates, _
    rw [hnum]
    rcases horder with heq | ⟨j, here, ahead, _, _, rfl, hhere, hahead, _, _, _, heq⟩
    · rw [heq]
      exact h.order
    · -- both entries that are written were among the first
      have hmem : ∀ p, p ∈ (rs.predOrder.take rs.numPredicates).set j here →
          p ∈ rs.predOrder.take rs.numPredicates := by
        intro p hp
        rcases mem_or_eq_of_mem_set hp with hp | rfl
        · exact hp
        · exact mem_take_iff.mpr ⟨j + 1, hlt, hhere⟩
      intro p hp
      rw [heq, take_set, take_set] at hp
      rcases mem_or_eq_of_mem_set hp with hp | rfl
      · exact h.order p (hmem p hp)
      · exact h.order p (mem_take_iff.mpr ⟨j, by omega, hahead⟩)

theorem firstExcluding_spec {g : γ} {oi : ℕ} (h : firstExcluding T rs g = some oi) :
    oi < rs.numPredicates ∧ ∃ p, rs.predOrder[oi]? = some p ∧
      ∃ pred, rs.predicates[p]? = some pred ∧
      T.excluded pred.body g = true := by
  unfold firstExcluding at h
  have hany := find?_some h
  obtain ⟨p, hp, hpred⟩ := (Option.any_eq_true _ _).mp hany
  obtain ⟨pred, hpred, hexcl⟩ := (Option.any_eq_true _ _).mp hpred
  exact ⟨mem_range.mp (mem_of_find?_eq_some h), p, hp, pred, hpred, hexcl⟩

/-- Where the order names attached predicates only, a group is excluded by one of these. -/
theorem Bounded.exists_excluded (h : Bounded scanKeys n r rs)
    (hn : scanKeys.length + n ≤ rs.numPredicates) {g : γ} (hg : (groupCanMatch T rs g).1 = false) :
    ∃ p ∈ scanKeys ++ boundsOf r, T.excluded p.1 g = true := by
  unfold groupCanMatch at hg
  split at hg
  · cases hg
  · next oi hoi =>
    obtain ⟨hlt, p, hp, pred, hpred, hexcl⟩ := firstExcluding_spec hoi
    have hmem := h.order p (mem_take_iff.mpr ⟨oi, hlt, hp⟩)
    refine ⟨pred.key, ?_, hexcl⟩
    rw [← h.shape.contents]
    exact mem_map_of_mem (mem_take_iff.mpr ⟨p, by omega, hpred⟩)

end ReadState

/-! ### The bounds of a build side -/

variable {a : α} {cmpFn : α → δ → ℤ} {pred : Zone.Predicate δ}

theorem not_extremesExclude (hfact : Agrees factCmp cmpFn)
    {z : α × α} (hlow : factCmp z.1 a ≤ 0) (hhigh : factCmp a z.2 ≤ 0)
    (ha : pred.Satisfies (fun st a b => st.holds (cmpFn a b)) a) :
    Zone.extremesExclude cmpFn pred z.1 z.2 = false := by
  by_contra hex
  rw [Bool.not_eq_false] at hex
  exact Zone.not_satisfies_of_extremesExclude hlow hhigh hfact (fun _ _ _ => Iff.rfl) hex ha

theorem valueSatisfies_eq_true
    (ha : pred.Satisfies (fun st a b => st.holds (cmpFn a b)) a) :
    valueSatisfies cmpFn pred a = true := by
  unfold valueSatisfies
  unfold Zone.Predicate.Satisfies at ha
  split
  · next harr =>
    rw [if_pos harr, pred.array_equal harr] at ha
    obtain ⟨b, hmem, hb⟩ := ha
    rw [any_eq_true]
    exact ⟨b, hmem, decide_eq_true hb⟩
  · next harr =>
    rw [if_neg harr] at ha
    cases hst : pred.strategy with
    | less | lessEqual | equal | greaterEqual | greater =>
      rw [hst] at ha
      exact decide_eq_true ha

/-- A key with a partner among the build keys is between the bounds. -/
theorem satisfies_rangeBounds {p : Body κ δ × Bool} (ho : OrderConsistent J factCmp op)
    {range : Option (δ × δ)}
    {vals : List δ}
    (hcov : Covers J.compareFn vals range) {b : δ} (hb : b ∈ vals) (hab : op a b)
    (hp : p ∈ boundsOf (rangeBounds J range)) :
    ∃ pred : Zone.Predicate δ, p.1 = .bound pred ∧
      pred.Satisfies (fun st a b => st.holds (J.cmpFn a b)) a := by
  unfold rangeBounds at hp
  split at hp
  · cases range with
    | none => cases hp
    | some r =>
      have heq := ho.equal a b hab
      obtain ⟨hlow, hhigh⟩ := hcov b hb
      simp only [Option.map_some, boundsOf, mem_cons, not_mem_nil, or_false] at hp
      rcases hp with rfl | rfl
      · refine ⟨_, rfl, ?_⟩
        have hle := ho.build.nonpos (b := a) hlow (by simp only [heq, neg_zero, le_refl])
        show 0 ≤ J.cmpFn a r.1
        omega
      · refine ⟨_, rfl, ?_⟩
        have hge := ho.build.nonneg (b := a) hhigh (by simp only [heq, neg_zero, le_refl])
        show J.cmpFn a r.2 ≤ 0
        omega
  · cases hp

/-! ### The invariant -/

/-- The coordinator has noted these rows, if there are any, and nothing else. -/
def FilterOf (J : RuntimeJoin α δ ρ) (s : JoinState κ δ ρ) : Option (List ρ) → Prop
  | none => s.tap = emptyTap ∧ s.filter = emptyFilter
  | some rows => TapOf J rows s.tap ∧ s.tap.replay = true ∧ ∃ attached,
      s.filter = { readyFilter J s.tap emptyFilter with rangeAttached := attached }

/-- How many entries of the order may lie behind those of the query. -/
def boundCount (J : RuntimeJoin α δ ρ) : ℕ := if J.intervalAvailable && J.makesBounds then 2 else 0

def ownKeys (keys : List (κ × Bool)) : List (Body κ δ × Bool) := keys.map fun k => (.own k.1, k.2)

/-- The coordinator has noted what was drained, which covers the build and the hash table. -/
structure JoinInv (J : RuntimeJoin α δ ρ) (keys : List (κ × Bool)) (build drained : Option (List ρ))
    (s : JoinState κ δ ρ) : Prop where
  both : build.isSome = drained.isSome
  covers : ∀ rows ∈ build, ∀ d ∈ drained, rows ⊆ d
  table : ∀ t ∈ s.table, ∀ d ∈ drained, t ⊆ d
  filter : FilterOf J s drained
  read : Bounded (ownKeys keys) (boundCount J) (rangeBounds J s.tap.range) s.readState

variable {build drained : Option (List ρ)} {s : JoinState κ δ ρ}

theorem prepared_eq (h : FilterOf J s drained) : s.filter.prepared = drained.isSome := by
  cases drained with
  | none =>
    rw [h.2]
    rfl
  | some rows =>
    obtain ⟨_, _, attached, hf⟩ := h
    rw [hf]
    rfl

theorem joinInv_begin : JoinInv J keys none none (beginJoin keys : JoinState κ δ ρ) := by
  refine ⟨rfl, nofun, nofun, ⟨rfl, rfl⟩, ?_⟩
  show Bounded (ownKeys keys) (boundCount J) (rangeBounds J none) _
  rw [rangeBounds_none]
  exact bounded_buildPredicates _ _

@[simp]
theorem prepareFilter_table (rows : List ρ) : (prepareFilter J rows s).table = s.table := by
  unfold prepareFilter
  dsimp only
  split <;> rfl

theorem prepare_spec (hf : FilterOf J s none)
    (hread : Bounded (ownKeys keys) (boundCount J) (rangeBounds J s.tap.range) s.readState)
    (rows : List ρ) : FilterOf J (prepareFilter J rows s) (some rows) ∧
      Bounded (ownKeys keys) (boundCount J) (rangeBounds J (prepareFilter J rows s).tap.range)
        (prepareFilter J rows s).readState := by
  obtain ⟨htap, hfilter⟩ := hf
  rw [htap] at hread
  have hof := tapOf_drainTap J rows
  rw [show (emptyTap : RuntimeTap δ ρ).range = none from rfl, rangeBounds_none] at hread
  unfold prepareFilter
  rw [htap, hfilter]
  dsimp only
  split
  · next hattach =>
    rw [Bool.and_eq_true] at hattach
    refine ⟨⟨hof, rfl, _, rfl⟩, ?_⟩
    cases hb : J.makesBounds with
    | false =>
      have hbounds : rangeBounds (κ := κ) J (drainTap J emptyTap rows).range = none := by
        unfold rangeBounds
        rw [hb, if_neg Bool.false_ne_true]
      show Bounded (ownKeys keys) (boundCount J) (rangeBounds J (drainTap J emptyTap rows).range)
        (setRuntimeRange s.readState (rangeBounds J (drainTap J emptyTap rows).range))
      rw [hbounds]
      exact hread
    | true =>
      obtain ⟨r, hr⟩ := Option.isSome_iff_exists.mp hattach.1
      have hcount : boundCount J = 2 := by
        unfold boundCount
        rw [hattach.2, hb]
        rfl
      rw [hcount] at hread
      show Bounded (ownKeys keys) (boundCount J) (rangeBounds J (drainTap J emptyTap rows).range)
        (setRuntimeRange s.readState (rangeBounds J (drainTap J emptyTap rows).range))
      rw [hcount, hr]
      unfold rangeBounds
      rw [hb, if_pos rfl, Option.map_some]
      exact hread.setRange _
  · next hattach =>
    refine ⟨⟨hof, rfl, _, rfl⟩, ?_⟩
    -- without an interval there is no range
    have hrange : (drainTap J emptyTap rows).range = none := by
      cases hint : J.intervalAvailable with
      | false => exact hof.noRange hint
      | true =>
        rw [hint, Bool.and_true, Bool.not_eq_true, Option.isSome_eq_false_iff] at hattach
        exact Option.isNone_iff_eq_none.mp hattach
    show Bounded (ownKeys keys) (boundCount J) (rangeBounds J (drainTap J emptyTap rows).range)
      s.readState
    rw [hrange, rangeBounds_none]
    exact hread

theorem JoinInv.prepare (h : JoinInv J keys none none s) {rows d : List ρ} (hrows : rows ⊆ d)
    (htable : ∀ t ∈ s.table, t ⊆ d) :
    JoinInv J keys (some rows) (some d) (prepareFilter J d s) := by
  obtain ⟨hf, hread⟩ := prepare_spec h.filter h.read d
  refine ⟨rfl, ?_, ?_, hf, hread⟩
  · intro r hr d' hd'
    cases hr
    cases hd'
    exact hrows
  · intro t ht d' hd'
    rw [prepareFilter_table] at ht
    cases hd'
    exact htable t ht

/-- The join reads what was drained. -/
theorem JoinInv.runJoin (h : JoinInv J keys build drained s) :
    JoinInv J keys build drained (runJoin s) := by
  refine ⟨h.both, h.covers, fun t ht d hd => ?_, ?_, h.read⟩
  · have ht : s.table.or (replayTap s.tap) = some t := ht
    rcases Option.or_eq_some_iff.mp ht with ht | ⟨_, ht⟩
    · exact h.table t ht d hd
    · have hf := h.filter
      rw [hd] at hf
      unfold replayTap at ht
      rw [if_pos hf.2.1, hf.1.store] at ht
      cases ht
      exact List.Subset.refl _
  · have hf := h.filter
    cases drained with
    | none => exact hf
    | some d => exact hf

theorem joinInv_step {s' : JoinState κ δ ρ} (h : JoinInv J keys build drained s) {e : JoinEvent ρ γ}
    (hok : UpToDate s e) (hstep : joinStep J F s e = some s') :
    ∃ drained', JoinInv J keys (buildStep build e) drained' s' := by
  have hprep := prepared_eq h.filter
  cases e with
  | exec rows d =>
    have hready : ∃ drained', JoinInv J keys (some (build.getD rows)) drained'
        (if s.filter.prepared then s else prepareFilter J d s) := by
      cases drained with
      | none =>
        have hnone : build = none := by simpa using h.both
        subst hnone
        obtain ⟨hrows, htable⟩ := hok hprep
        rw [hprep, Option.isSome_none, if_neg Bool.false_ne_true]
        exact ⟨some d, h.prepare hrows htable⟩
      | some old =>
        obtain ⟨b, rfl⟩ := Option.isSome_iff_exists.mp h.both
        rw [hprep, Option.isSome_some, if_pos rfl]
        exact ⟨some old, h⟩
    obtain ⟨drained', hready⟩ := hready
    cases hstep
    have hrun : ∀ t : JoinState κ δ ρ, JoinInv J keys (some (build.getD rows)) drained' t →
        JoinInv J keys (some (build.getD rows)) drained'
          (if t.filter.buildEmpty then t else runJoin t) := by
      intro t ht
      split
      · exact ht
      · exact ht.runJoin
    exact ⟨drained', hrun _ hready⟩
  | groupTest g =>
    simp only [joinStep] at hstep
    split at hstep
    · cases hstep
      exact ⟨drained, h.both, h.covers, h.table, h.filter, h.read.groupTest _ g⟩
    · cases hstep
  | rescan keepsTable =>
    cases hstep
    refine ⟨none, rfl, nofun, nofun, ⟨rfl, rfl⟩, ?_⟩
    show Bounded (ownKeys keys) (boundCount J) (rangeBounds J none) (clearRuntimeRange s.readState)
    rw [rangeBounds_none]
    exact h.read.clearRange

theorem joinInv_run {s' : JoinState κ δ ρ} {events : List (JoinEvent ρ γ)}
    (h : JoinInv J keys build drained s)
    (hok : Run.AllSteps (joinStep J F) UpToDate s events)
    (hrun : Run.run (joinStep J F) s events = some s') :
    ∃ drained', JoinInv J keys (events.foldl buildStep build) drained' s' := by
  induction events generalizing build drained s with
  | nil =>
    cases hrun
    exact ⟨drained, h⟩
  | cons e events ih =>
    obtain ⟨t, ht, hrun⟩ := Run.run_cons.mp hrun
    obtain ⟨drained', hnext⟩ := joinInv_step h hok.1 ht
    exact ih hnext (hok.2 t ht) hrun

/-! ### Soundness -/

/-- The Bloom filter of a build, if there is one, is that of the hashes of its keys. -/
theorem bloomMatch_of_partner (hc : Consistent J factCmp op)
    (h : FilterOf J s (some rows)) {b : δ} (hb : b ∈ rows.filterMap J.key) (hab : op a b) :
    s.filter.buildEmpty = false ∧ runtimeBloomMatch J s.filter (some a) = true := by
  obtain ⟨htap, _, attached, hf⟩ := h
  have hrows : s.tap.buildRows ≠ 0 := by
    rw [htap.buildRows]
    exact Nat.ne_of_gt (length_pos_of_mem hb)
  have hempty : s.filter.buildEmpty = false := by
    rw [hf]
    unfold readyFilter
    split <;> exact decide_eq_false hrows
  refine ⟨hempty, ?_⟩
  unfold runtimeBloomMatch
  split
  · rfl
  · dsimp only
    rw [hempty, if_neg Bool.false_ne_true]
    split
    · rfl
    · next henabled =>
      rw [Bool.not_eq_true', Bool.not_eq_false] at henabled
      rw [Option.all_eq_true]
      intro f hfact
      -- the filter is enabled, so it was built
      have hready : s.filter.bloomEnabled = (readyFilter J s.tap emptyFilter).bloomEnabled ∧
          s.filter.bloom = (readyFilter J s.tap emptyFilter).bloom := by
        rw [hf]
        exact ⟨rfl, rfl⟩
      obtain ⟨hen, hbloom⟩ := hready
      rw [hbloom]
      rw [hen] at henabled
      unfold readyFilter at henabled ⊢
      dsimp only at henabled ⊢
      split at henabled
      · next hhash =>
        rw [Bool.and_eq_true, Bool.and_eq_true] at hhash
        obtain ⟨hashFn, hbuild⟩ := Option.isSome_iff_exists.mp hhash.1.2
        obtain ⟨bs, hbs⟩ := Option.isSome_iff_exists.mp henabled
        rw [if_pos (by rw [hhash.1.1, hhash.1.2, hhash.2]; rfl)]
        have hmem : hashFn b ∈ s.tap.hashes := by
          rw [htap.hashes hashFn hbuild]
          exact mem_map_of_mem hb
        rw [hbs, hc.hash f hfact hashFn hbuild a b hab, Option.all_some,
          Bloom.bloomProbe_build hbs hmem]
        rfl
      · cases henabled

/-- A test that excludes is one of the query's, or one of the bounds. -/
theorem exists_own_or_bound {p : Body κ δ × Bool} {r : Option (Body κ δ × Body κ δ)}
    (hp : p ∈ ownKeys keys ++ boundsOf r) : (∃ k ∈ keys, p.1 = .own k.1) ∨ p ∈ boundsOf r := by
  rcases mem_append.mp hp with hp | hp
  · obtain ⟨k, hk, rfl⟩ := mem_map.mp hp
    exact .inl ⟨k, hk, rfl⟩
  · exact .inr hp

theorem notRejected (hc : Consistent J factCmp op)
    (h : JoinInv J keys build (some rows) s) {b : δ} (hb : b ∈ rows.filterMap J.key)
    (hab : op a b) : NotRejected J F factCmp keys s a := by
  obtain ⟨hruns, hbloom⟩ := bloomMatch_of_partner hc h.filter hb hab
  have htap := h.filter.1
  -- what a bound among the attached predicates says of the key
  have hbound : ∀ p ∈ boundsOf (rangeBounds (κ := κ) J s.tap.range),
      J.intervalAvailable = true ∧ ∃ pred : Zone.Predicate δ, p.1 = .bound pred ∧
        pred.Satisfies (fun st a b => st.holds (J.cmpFn a b)) a := by
    intro p hp
    cases hint : J.intervalAvailable with
    | false =>
      rw [htap.noRange hint] at hp
      unfold rangeBounds at hp
      split at hp <;> cases hp
    | true =>
      have ho := hc.order hint
      exact ⟨rfl, satisfies_rangeBounds ho (htap.covers hint ho.total) hb hab hp⟩
  have hzone : ∀ g, Within F factCmp g a → ∀ p ∈ boundsOf (rangeBounds (κ := κ) J s.tap.range),
      (F.tests J).zoneExcludes p.1 g = false := by
    intro g hg p hp
    obtain ⟨hint, pred, heq, hsat⟩ := hbound p hp
    rw [heq]
    show (F.keyZone g).any _ = false
    cases hz : F.keyZone g with
    | none => rfl
    | some z =>
      obtain ⟨hlow, hhigh⟩ := hg z hz
      exact not_extremesExclude (hc.order hint).fact hlow hhigh hsat
  have hnum : (ownKeys (δ := δ) keys).length + boundCount J ≤ s.readState.numPredicates := by
    rw [h.read.shape.count, length_append]
    apply Nat.add_le_add_left
    unfold boundCount
    split
    · next hboth =>
      rw [Bool.and_eq_true] at hboth
      -- there is a key, so there is a range
      have hcov := htap.covers hboth.1 (hc.order hboth.1).total
      cases hr : s.tap.range with
      | none =>
        rw [hr] at hcov
        rw [show rows.filterMap J.key = [] from hcov] at hb
        cases hb
      | some r =>
        unfold rangeBounds
        rw [hboth.2, if_pos rfl]
        exact Nat.le_refl 2
    · exact Nat.zero_le _
  constructor
  · exact hruns
  · unfold runtimeBloomKeeps
    rw [hbloom, Bool.or_true]
  · intro g hg hex
    obtain ⟨p, hp, hexcl⟩ := h.read.exists_excluded hnum hex
    rcases exists_own_or_bound hp with ⟨k, hk, heq⟩ | hp
    · rw [heq] at hexcl
      exact ⟨k, hk, hexcl⟩
    · obtain ⟨_, pred, heq, _⟩ := hbound p hp
      have hfalse := hzone g hg p hp
      unfold Tests.excluded at hexcl
      rw [hfalse, heq, Bool.false_or] at hexcl
      cases hexcl
  · intro v hv hskip
    obtain ⟨pred, hmem, hexcl⟩ := any_eq_true.mp hskip
    have hp : pred.key ∈ ownKeys keys ++ boundsOf (rangeBounds J s.tap.range) := by
      rw [← h.read.shape.contents]
      exact mem_map_of_mem hmem
    rcases exists_own_or_bound hp with ⟨k, hk, heq⟩ | hp
    · rw [show pred.body = .own k.1 from heq] at hexcl
      exact ⟨k, hk, hexcl⟩
    · rw [show (F.tests J).zoneExcludes pred.body v = false from hzone v hv _ hp] at hexcl
      cases hexcl
  · intro vals ha hout
    simp only [vectorRuledOut, Bool.and_eq_true, Bool.not_eq_true', any_eq_false] at hout
    have hno := hout.2 a ha
    rw [all_eq_true] at hno
    by_contra hall
    apply hno
    intro test htest
    obtain ⟨pred, hmem, hkey⟩ := mem_filterMap.mp htest
    have hp : pred.key ∈ ownKeys keys ++ boundsOf (rangeBounds J s.tap.range) := by
      rw [← h.read.shape.contents]
      exact mem_map_of_mem hmem
    rcases exists_own_or_bound hp with ⟨k, hk, heq⟩ | hp
    · rw [show pred.body = .own k.1 from heq] at hkey
      by_contra hfalse
      exact hall ⟨k, hk, test, hkey, Bool.not_eq_true _ ▸ hfalse⟩
    · obtain ⟨_, bound, heq, hsat⟩ := hbound _ hp
      rw [show pred.body = .bound bound from heq] at hkey
      cases hkey
      exact valueSatisfies_eq_true hsat

/-- **A fact key with a partner in the current build is not rejected**, nor is one with a
partner in the hash table of the join, in a run in which what is drained has both.  After any
number of runs and rescans neither the bounds, nor the shortcut for an empty build, nor the
Bloom filter rejects a fact key that the join operator calls equal to one of theirs. -/
theorem runtimeFilter_sound (J : RuntimeJoin α δ ρ) (F : FactScan κ α γ) (factCmp : α → α → ℤ)
    (op : α → δ → Prop) (hc : Consistent J factCmp op) (keys : List (κ × Bool))
    (events : List (JoinEvent ρ γ)) (s : JoinState κ δ ρ)
    (hok : Run.AllSteps (joinStep J F) UpToDate (beginJoin keys) events)
    (hrun : Run.run (joinStep J F) (beginJoin keys) events = some s) (rows : List ρ)
    (hbuild : currentBuild events = some rows) (row : ρ)
    (hrow : row ∈ rows ∨ ∃ t ∈ s.table, row ∈ t) :
    ∀ b ∈ J.key row, ∀ a, op a b → NotRejected J F factCmp keys s a := by
  obtain ⟨drained, hinv⟩ := joinInv_run (joinInv_begin (J := J)) hok hrun
  rw [show events.foldl buildStep none = some rows from hbuild] at hinv
  obtain ⟨d, rfl⟩ := Option.isSome_iff_exists.mp hinv.both.symm
  have hmem : row ∈ d := by
    rcases hrow with hrow | ⟨t, ht, hrow⟩
    · exact hinv.covers rows rfl d rfl hrow
    · exact hinv.table t ht d rfl hrow
  intro b hb a hab
  exact notRejected hc hinv (mem_filterMap.mpr ⟨row, hmem, hb⟩) hab

/-! An `int4` join, run over the keys up to 20, and after a rescan over the keys from 30. -/

def int4Join : RuntimeJoin ℤ ℤ (Option ℤ) where
  key row := row
  compareFn := Zone.btintCmp
  intervalAvailable := true
  cmpFn := Zone.btintCmp
  makesBounds := true
  buildHashFn := some (BitVec.ofInt 32)
  factHashFn := some (BitVec.ofInt 32)
  hyperLogLog := List.length

/-- A group is its least and its greatest value, and the query has `fact <= 200`. -/
def int4Fact : FactScan ℤ ℤ (ℤ × ℤ) where
  own := ⟨fun k g => decide (k < g.1), fun _ => false, fun _ _ => false⟩
  keyZone g := some g
  onKey k := some fun v => decide (v ≤ k)

theorem consistent_int4Join : Consistent int4Join Zone.btintCmp fun a b => a = b := by
  have htotal : TotalCmp Zone.btintCmp := totalCmp_of_key fun a b => Zone.btintCmp_sign a b
  have hequal : ∀ a b : ℤ, a = b → Zone.btintCmp a b = 0 := by
    intro a b hab
    rw [hab]
    exact htotal.self b
  constructor
  · intro _
    exact orderConsistent_of_total (J := int4Join) htotal rfl hequal
  · intro f hf h hh a b hab
    cases hf
    cases hh
    rw [hab]

def firstKeys : List (Option ℤ) := (List.range 20).map fun n => some (n : ℤ)

def laterKeys : List (Option ℤ) := none :: (List.range 80).map fun n => some ((n + 30 : ℕ) : ℤ)

def twoBuilds : List (JoinEvent (Option ℤ) (ℤ × ℤ)) :=
  [.exec firstKeys firstKeys, .groupTest (0, 50), .groupTest (60, 90), .rescan false,
    .exec laterKeys laterKeys, .groupTest (0, 20)]

/-- The key 70 is outside the first build and in the second, which has a Bloom filter. -/
theorem runtimeFilter_sound_twoBuilds :
    ∃ s, Run.run (joinStep int4Join int4Fact) (beginJoin [(200, false)]) twoBuilds = some s ∧
      s.filter.bloomEnabled = true ∧
      NotRejected int4Join int4Fact Zone.btintCmp [(200, false)] s 70 := by
  have hrun : (Run.run (joinStep int4Join int4Fact) (beginJoin [(200, false)]) twoBuilds).map
      (·.filter.bloomEnabled) = some true := by decide +kernel
  obtain ⟨s, hs, hbloom⟩ := Option.map_eq_some_iff.mp hrun
  refine ⟨s, hs, hbloom, ?_⟩
  exact runtimeFilter_sound int4Join int4Fact Zone.btintCmp (fun a b => a = b) consistent_int4Join
    [(200, false)] twoBuilds s (by decide +kernel) hs laterKeys rfl (some 70)
    (.inl (by decide +kernel)) 70 rfl 70 rfl

/-- The parameter of the build side has changed and its source, not told so, replays the
rows it has kept. -/
def staleBuild : List (JoinEvent (Option ℤ) (ℤ × ℤ)) :=
  [.exec laterKeys laterKeys, .rescan false, .exec firstKeys laterKeys]

/-- The key 5 is in the build, and the bounds and the Bloom filter are those of old rows. -/
theorem rejected_staleBuild :
    ∃ s, Run.run (joinStep int4Join int4Fact) (beginJoin [(200, false)]) staleBuild = some s ∧
      (∃ rows ∈ currentBuild staleBuild, some 5 ∈ rows) ∧
      ¬ NotRejected int4Join int4Fact Zone.btintCmp [(200, false)] s 5 := by
  have hrun : (Run.run (joinStep int4Join int4Fact) (beginJoin [(200, false)]) staleBuild).map
      (fun s => runtimeBloomKeeps int4Join s (some 5)) = some false := by decide +kernel
  obtain ⟨s, hs, hbloom⟩ := Option.map_eq_some_iff.mp hrun
  refine ⟨s, hs, ⟨firstKeys, rfl, by decide +kernel⟩, fun h => ?_⟩
  rw [h.bloom] at hbloom
  cases hbloom

end PgColumnar.Scan
