import PgColumnar.Lib.OpenTable
import PgColumnar.Group.Accumulator
import PgColumnar.Group.Keys
import Mathlib.Tactic.NormNum
import Mathlib.Tactic.IntervalCases

/-!
# The table of a grouped aggregate

The hash table of `columnar_vector.c` that finds the group of a row: open addressing with
linear probing, a power of two of slots, grown when seven tenths of them are taken.  It jumps
towards the planner's estimate when it grows, and it does not grow beyond `2^30` slots, where
a probe for a new key never ends once every slot is taken.

## Main definitions

* `Table`, `grow` — the table, and its growth up to a ceiling.

## Main results

* `grow_eq` — growing keeps the entries.
* `Ready.find` — what the walk for keys proves.
-/

namespace PgColumnar.Group

open Probe List Nat

/-- `PgColumnarGroupEntry` -/
structure Entry (δ : Type) where
  hash : Hash
  keys : List (Option δ)
  specs : List Acc

structure Table (δ : Type) where
  slots : List (Option (Entry δ))
  nGroups : ℕ

/-- How the node ends without a result. -/
inductive Failure where
  /-- `grouped vectorized aggregate exceeded pgcolumnar.groupagg_max_groups` -/
  | maxGroups
  /-- `columnar parallel partial: unsupported aggregate kind` -/
  | unsupportedKind
  /-- The probe goes on forever. -/
  | endless
  deriving DecidableEq, Repr

/-- `COLUMNAR_GROUPAGG_JUMP` -/
def groupaggJump : ℕ := 64

/-- The ceiling of the capacity, `1 << 30`. -/
def maxCapacity : ℕ := 2 ^ 30

/-- The first of the capacities `1024, 2048, …` that is not below `want`, up to the ceiling. -/
def roundUp (want : ℕ) : ℕ → ℕ → ℕ
  | 0, cap => cap
  | fuel + 1, cap => if cap < want ∧ cap < maxCapacity then roundUp want fuel (cap * 2) else cap

/-- Halve a capacity down to a limit, but not below `1024`. -/
def roundDown (limit : ℕ) : ℕ → ℕ → ℕ
  | 0, cap => cap
  | fuel + 1, cap => if limit < cap ∧ 1024 < cap then roundDown limit fuel (cap / 2) else cap

/-- `pgcolumnar_groupagg_size_hint`; `want` is the planner's estimate over the load factor,
rounded up. -/
def sizeHint (want maxGroups : ℕ) : ℕ :=
  if want < 1024 then 0
  else
    let cap := roundUp want 20 1024
    let limit := if 0 < maxGroups then min maxCapacity (maxGroups * 10 / 7) else maxCapacity
    let cap := roundDown limit 20 cap
    if cap ≤ 1024 then 0 else cap

/-- The capacity that `pgcolumnar_groupagg_grow` asks for. -/
def grownCapacity (hint oldCap : ℕ) : ℕ :=
  let newCap :=
    if oldCap = 0 then 1024
    else if oldCap * 2 < hint then
      min hint (if maxCapacity / groupaggJump < oldCap then maxCapacity else oldCap * groupaggJump)
    else oldCap * 2
  min newCap maxCapacity

variable {δ : Type}

/-- `pgcolumnar_groupagg_reset_table` -/
def resetTable : Table δ := ⟨[], 0⟩

/-- Where the probe for a hash starts. -/
def startSlot (capacity : ℕ) (hash : Hash) : ℕ := hash.toNat &&& (capacity - 1)

/-- An entry in the first free slot of the new table. -/
def reinsert (slots : List (Option (Entry δ))) (e : Entry δ) :
    Except Failure (List (Option (Entry δ))) :=
  match probe slots (fun _ => false) slots.length (startSlot slots.length e.hash) with
  | .empty i => .ok (slots.set i (some e))
  | _ => .error .endless

/-- `pgcolumnar_groupagg_grow` -/
def grow (hint : ℕ) (t : Table δ) : Except Failure (Table δ) :=
  let newCap := grownCapacity hint t.slots.length
  if newCap ≤ t.slots.length then .ok t
  else
    ((entries t.slots).foldlM reinsert (List.replicate newCap none)).map fun slots =>
      ⟨slots, t.nGroups⟩

def mustGrow (t : Table δ) : Bool := decide (t.slots.length * 7 ≤ (t.nGroups + 1) * 10)

/-- The table that a probe walks over. -/
def ensureRoom (hint : ℕ) (t : Table δ) : Except Failure (Table δ) :=
  if mustGrow t then grow hint t else .ok t

variable (bits : δ → Datum) (keys : List (GroupKey δ))

/-- The test of the probe loop. -/
def sameGroup (keyvals : List (Option δ)) (e : Entry δ) : Bool :=
  decide (e.hash = hashKeys bits keys keyvals) && keysEqual bits keys e.keys keyvals

/-- The walk of `pgcolumnar_groupagg_lookup` for the keys of a row, and the table that it
walks over. -/
def probeGroup (hint : ℕ) (t : Table δ) (keyvals : List (Option δ)) :
    Except Failure (Table δ × Outcome (Entry δ)) := do
  let t ← ensureRoom hint t
  .ok (t, probe t.slots (sameGroup bits keys keyvals) t.slots.length
    (startSlot t.slots.length (hashKeys bits keys keyvals)))

/-! ### Capacities -/

/-- A power of two from `1024` to the ceiling. -/
def IsCapacity (n : ℕ) : Prop := ∃ k, 10 ≤ k ∧ k ≤ 30 ∧ n = 2 ^ k

variable {n : ℕ}

theorem IsCapacity.le (h : IsCapacity n) : n ≤ maxCapacity := by
  obtain ⟨k, -, hk, rfl⟩ := h
  exact Nat.pow_le_pow_right (by decide) hk

theorem IsCapacity.ge (h : IsCapacity n) : 1024 ≤ n := by
  obtain ⟨k, hk, -, rfl⟩ := h
  exact Nat.pow_le_pow_right (n := 2) (i := 10) (by decide) hk

theorem isCapacity_start : IsCapacity 1024 := ⟨10, le_refl _, by decide, rfl⟩

theorem isCapacity_max : IsCapacity maxCapacity := ⟨30, by decide, le_refl _, rfl⟩

/-- Below the ceiling a capacity can double. -/
theorem IsCapacity.double (h : IsCapacity n) (hlt : n < maxCapacity) : IsCapacity (n * 2) := by
  obtain ⟨k, hlow, hhigh, rfl⟩ := h
  refine ⟨k + 1, by omega, ?_, (Nat.pow_succ 2 k).symm⟩
  by_contra hgt
  obtain rfl : k = 30 := by omega
  exact absurd hlt (lt_irrefl _)

theorem isCapacity_roundUp (want fuel : ℕ) {cap : ℕ} (h : IsCapacity cap) :
    IsCapacity (roundUp want fuel cap) := by
  induction fuel generalizing cap with
  | zero => exact h
  | succ fuel ih =>
    unfold roundUp
    split
    · next hlt => exact ih (h.double hlt.2)
    · exact h

theorem isCapacity_roundDown (limit fuel : ℕ) {cap : ℕ} (h : IsCapacity cap) :
    IsCapacity (roundDown limit fuel cap) := by
  induction fuel generalizing cap with
  | zero => exact h
  | succ fuel ih =>
    unfold roundDown
    split
    · next hlt =>
      obtain ⟨k, hlow, hhigh, rfl⟩ := h
      have hk : 10 < k := by
        by_contra hle
        obtain rfl : k = 10 := by omega
        exact absurd hlt.2 (by decide)
      apply ih
      obtain ⟨j, rfl⟩ := Nat.exists_eq_add_of_lt hk
      refine ⟨10 + j, by omega, by omega, ?_⟩
      rw [Nat.pow_succ, Nat.mul_div_cancel _ (by decide)]
    · exact h

theorem sizeHint_eq (want maxGroups : ℕ) :
    sizeHint want maxGroups = 0 ∨ IsCapacity (sizeHint want maxGroups) := by
  unfold sizeHint
  split
  · exact .inl rfl
  dsimp only
  have hcap := fun limit => isCapacity_roundDown limit 20
    (isCapacity_roundUp want 20 isCapacity_start)
  split <;> split <;> first | exact .inl rfl | exact .inr (hcap _)

/-- **The new capacity** is at least twice the old one, unless that is the ceiling. -/
theorem grownCapacity_eq {hint oldCap : ℕ} (hhint : hint = 0 ∨ IsCapacity hint)
    (hold : oldCap = 0 ∨ IsCapacity oldCap) :
    IsCapacity (grownCapacity hint oldCap) ∧
      (oldCap * 2 ≤ grownCapacity hint oldCap ∨ oldCap = maxCapacity) := by
  unfold grownCapacity
  rcases hold with rfl | hold
  · exact ⟨isCapacity_start, .inl (zero_le _)⟩
  have hpos := hold.ge
  rw [if_neg (by omega)]
  split
  · next hlt =>
    have hhint : IsCapacity hint := hhint.resolve_left (by omega)
    rw [min_eq_left ((min_le_left _ _).trans hhint.le)]
    split
    · rw [min_eq_left hhint.le]
      exact ⟨hhint, .inl (le_of_lt hlt)⟩
    · next hjump =>
      obtain ⟨k, hlow, hhigh, rfl⟩ := hold
      have hk : k ≤ 24 := by
        by_contra hgt
        have hle : 2 ^ 25 ≤ 2 ^ k := Nat.pow_le_pow_right (by decide) (by omega)
        norm_num [maxCapacity, groupaggJump] at hjump hle
        omega
      have hceiling : IsCapacity (2 ^ k * groupaggJump) :=
        ⟨k + 6, by omega, by omega, (pow_add 2 k 6).symm⟩
      rcases min_choice hint (2 ^ k * groupaggJump) with hmin | hmin
      · rw [hmin]
        exact ⟨hhint, .inl (le_of_lt hlt)⟩
      · rw [hmin]
        exact ⟨hceiling, .inl (mul_le_mul_left _ (by decide))⟩
  · by_cases hmax : oldCap = maxCapacity
    · subst hmax
      rw [min_eq_right (by omega)]
      exact ⟨isCapacity_max, .inr rfl⟩
    · have hdouble := hold.double (lt_of_le_of_ne hold.le hmax)
      rw [min_eq_left hdouble.le]
      exact ⟨hdouble, .inl (le_refl _)⟩

theorem startSlot_eq (h : IsCapacity n) (hash : Hash) : startSlot n hash = hash.toNat % n := by
  obtain ⟨k, -, -, rfl⟩ := h
  rw [startSlot, and_two_pow_sub_one_eq_mod]

/-! ### The invariant -/

/-- Every entry is where a probe finds it, and there is a free slot below the ceiling. -/
structure Sound (t : Table δ) : Prop where
  size : t.slots = [] ∨ IsCapacity t.slots.length
  chained : Chained t.slots fun e => e.hash.toNat % t.slots.length
  hashed : ∀ e ∈ entries t.slots, e.hash = hashKeys bits keys e.keys
  nGroups : t.nGroups = (entries t.slots).length
  load : t.nGroups * 10 < t.slots.length * 7 ∨ t.slots = [] ∨ t.slots.length = maxCapacity

/-- One more entry may be stored, unless the table is at the ceiling. -/
structure Ready (t : Table δ) : Prop where
  sound : Sound bits keys t
  capacity : IsCapacity t.slots.length
  room : (t.nGroups + 1) * 10 < t.slots.length * 7 ∨ t.slots.length = maxCapacity

variable {bits keys} {t : Table δ} {hint : ℕ}

theorem sound_reset : Sound bits keys (resetTable : Table δ) where
  size := .inl rfl
  chained := fun s hs => absurd hs (not_lt_zero s)
  hashed := by simp [resetTable, entries]
  nGroups := rfl
  load := .inr (.inl rfl)

/-- With a free slot for each of them, entries are moved to the new table. -/
theorem foldlM_reinsert {es : List (Entry δ)} {slots : List (Option (Entry δ))}
    (hcap : IsCapacity slots.length)
    (hchained : Chained slots fun e => e.hash.toNat % slots.length)
    (hroom : (entries slots).length + es.length ≤ slots.length) :
    ∃ slots', es.foldlM reinsert slots = .ok slots' ∧ slots'.length = slots.length ∧
      Chained slots' (fun e => e.hash.toNat % slots.length) ∧
      (entries slots').Perm (es ++ entries slots) := by
  induction es generalizing slots with
  | nil => exact ⟨slots, rfl, rfl, hchained, List.Perm.refl _⟩
  | cons e es ih =>
    have hpos := hcap.ge
    simp only [length_cons] at hroom
    have hstep : ∃ i, probe slots (fun _ => false) slots.length
          (startSlot slots.length e.hash) = .empty i ∧
        Chained (slots.set i (some e)) (fun e => e.hash.toNat % slots.length) ∧
        (entries (slots.set i (some e))).Perm (e :: entries slots) := by
      rw [startSlot_eq hcap]
      rcases @Chained.find _ (fun e : Entry δ => e.hash.toNat) _ hchained (by omega) e
        (fun _ => false) (by simp) with ⟨i, b, -, hb, -⟩ | ⟨i, hi, -, hset, hperm⟩ | ⟨-, -, hfull⟩
      · cases hb
      · exact ⟨i, hi, hset, hperm⟩
      · omega
    obtain ⟨i, hprobe, hset, hperm⟩ := hstep
    have hlen : (slots.set i (some e)).length = slots.length := length_set
    obtain ⟨slots', hfold, hlen', hchained', hperm'⟩ := @ih (slots.set i (some e))
      (by rwa [hlen]) (by rwa [hlen])
      (by rw [hperm.length_eq, hlen, length_cons]; omega)
    refine ⟨slots', ?_, hlen'.trans hlen, by rwa [hlen] at hchained', ?_⟩
    · rw [foldlM_cons]
      unfold reinsert
      rw [hprobe]
      exact hfold
    · -- the entry moved first stands between those moved later and the older ones
      refine hperm'.trans ((hperm.append_left es).trans ?_)
      exact perm_middle

/-- **Growing keeps the entries**, and there is room afterwards. -/
theorem grow_eq (h : Sound bits keys t) (hhint : hint = 0 ∨ IsCapacity hint) :
    ∃ t', grow hint t = .ok t' ∧ Ready bits keys t' ∧
      (entries t'.slots).Perm (entries t.slots) := by
  have hold : t.slots.length = 0 ∨ IsCapacity t.slots.length :=
    h.size.imp (fun hnil => by rw [hnil]; rfl) id
  obtain ⟨hcap, hdouble⟩ := grownCapacity_eq hhint hold
  have hge := hcap.ge
  unfold grow
  dsimp only
  split
  · next hle =>
    -- at the ceiling the table stays as it is
    have hmax : t.slots.length = maxCapacity := by omega
    refine ⟨t, rfl, ⟨h, ?_, .inr hmax⟩, List.Perm.refl _⟩
    rw [hmax]
    exact isCapacity_max
  · next hlt =>
    have hle := hcap.le
    have hnGroups : (entries t.slots).length * 10 < grownCapacity hint t.slots.length * 7 ∧
        ((entries t.slots).length + 1) * 10 < grownCapacity hint t.slots.length * 7 := by
      have hload := h.load
      have hcount := length_entries t.slots
      have hcountle : t.slots.countP Option.isSome ≤ t.slots.length := countP_le_length
      rw [h.nGroups] at hload
      rcases hload with hload | hnil | hmax
      · omega
      · have hzero : (entries t.slots).length = 0 := by
          rw [hnil]
          rfl
        omega
      · omega
    obtain ⟨slots', hfold, hlen, hchained, hperm⟩ := @foldlM_reinsert _ (entries t.slots)
      (List.replicate (grownCapacity hint t.slots.length) none)
      (by rwa [length_replicate]) (chained_replicate_none _ _)
      (by rw [entries_replicate, length_replicate]; simp only [length_nil]; omega)
    rw [entries_replicate, append_nil] at hperm
    rw [length_replicate] at hlen hchained
    refine ⟨⟨slots', t.nGroups⟩, by rw [hfold]; rfl, ⟨⟨?_, ?_, ?_, ?_, ?_⟩, ?_, ?_⟩, hperm⟩
    · exact .inr (hlen ▸ hcap)
    · show Chained slots' fun e => e.hash.toNat % slots'.length
      rwa [hlen]
    · exact fun e he => h.hashed e (hperm.mem_iff.mp he)
    · exact h.nGroups.trans hperm.length_eq.symm
    · refine .inl ?_
      show t.nGroups * 10 < slots'.length * 7
      rw [hlen, h.nGroups]
      exact hnGroups.1
    · show IsCapacity slots'.length
      rwa [hlen]
    · refine .inl ?_
      show (t.nGroups + 1) * 10 < slots'.length * 7
      rw [hlen, h.nGroups]
      exact hnGroups.2

/-- The table that the probe walks over. -/
theorem ready_of_sound (h : Sound bits keys t) (hhint : hint = 0 ∨ IsCapacity hint) :
    ∃ t', ensureRoom hint t = .ok t' ∧ Ready bits keys t' ∧
      (entries t'.slots).Perm (entries t.slots) := by
  unfold ensureRoom
  split
  · exact grow_eq h hhint
  · next hno =>
    simp only [mustGrow, decide_eq_true_eq, not_le] at hno
    refine ⟨t, rfl, ⟨h, ?_, .inl hno⟩, List.Perm.refl _⟩
    refine h.size.resolve_left fun hnil => ?_
    rw [hnil] at hno
    exact not_lt_zero _ hno

/-- **What the walk proves** of a table that is ready. -/
theorem Ready.find (h : Ready bits keys t) (hlawful : ∀ k ∈ keys, k.Lawful bits)
    (keyvals : List (Option δ)) {o : Outcome (Entry δ)}
    (ho : probe t.slots (sameGroup bits keys keyvals) t.slots.length
      (startSlot t.slots.length (hashKeys bits keys keyvals)) = o) :
    match o with
    | .hit i e => e ∈ entries t.slots ∧ keysEqual bits keys e.keys keyvals = true ∧
        t.slots.getD i none = some e
    | .empty i => (∀ e ∈ entries t.slots, keysEqual bits keys e.keys keyvals = false) ∧
        ∀ specs, Chained (t.slots.set i (some ⟨hashKeys bits keys keyvals, keyvals, specs⟩))
            (fun e => e.hash.toNat % t.slots.length) ∧
          (entries (t.slots.set i (some ⟨hashKeys bits keys keyvals, keyvals, specs⟩))).Perm
            (⟨hashKeys bits keys keyvals, keyvals, specs⟩ :: entries t.slots)
    | .exhausted => (∀ e ∈ entries t.slots, keysEqual bits keys e.keys keyvals = false) ∧
        t.nGroups = maxCapacity := by
  have hpos := h.capacity.ge
  -- equal keys have equal hashes, so the test of the hash rules none of them out
  have hsame : ∀ e ∈ entries t.slots,
      sameGroup bits keys keyvals e = keysEqual bits keys e.keys keyvals := by
    intro e he
    unfold sameGroup
    cases hkeys : keysEqual bits keys e.keys keyvals with
    | false => rw [Bool.and_false]
    | true =>
      rw [Bool.and_true, h.sound.hashed e he]
      exact decide_eq_true (hashFrom_congr hlawful hkeys 0)
  have hmissed : (∀ e ∈ entries t.slots, sameGroup bits keys keyvals e = false) →
      ∀ e ∈ entries t.slots, keysEqual bits keys e.keys keyvals = false := by
    intro hall e he
    rw [← hsame e he]
    exact hall e he
  have hfind := fun specs => @Chained.find _ (fun e : Entry δ => e.hash.toNat)
    _ h.sound.chained (by omega) ⟨hashKeys bits keys keyvals, keyvals, specs⟩
    (sameGroup bits keys keyvals) (by
      intro b _ hb
      simp only [sameGroup, Bool.and_eq_true, decide_eq_true_eq] at hb
      rw [hb.1])
  rw [startSlot_eq h.capacity] at ho
  simp only [ho] at hfind
  cases o with
  | hit i e =>
    rcases hfind [] with ⟨i', b, hmem, hb, hslot, heq⟩ | ⟨i', heq, -⟩ | ⟨heq, -⟩
    · cases heq
      exact ⟨hmem, by rwa [hsame e hmem] at hb, hslot⟩
    · cases heq
    · cases heq
  | empty i =>
    have hcases : ∀ specs, (∀ b ∈ entries t.slots, sameGroup bits keys keyvals b = false) ∧
        Chained (t.slots.set i (some ⟨hashKeys bits keys keyvals, keyvals, specs⟩))
          (fun e => e.hash.toNat % t.slots.length) ∧
        (entries (t.slots.set i (some ⟨hashKeys bits keys keyvals, keyvals, specs⟩))).Perm
          (⟨hashKeys bits keys keyvals, keyvals, specs⟩ :: entries t.slots) := by
      intro specs
      rcases hfind specs with ⟨i', b, -, -, -, heq⟩ | ⟨i', heq, hall, hset, hperm⟩ | ⟨heq, -⟩
      · cases heq
      · cases heq
        exact ⟨hall, hset, hperm⟩
      · cases heq
    exact ⟨hmissed (hcases []).1, fun specs => (hcases specs).2⟩
  | exhausted =>
    rcases hfind [] with ⟨i', b, -, -, -, heq⟩ | ⟨i', heq, -⟩ | ⟨-, hall, hfull⟩
    · cases heq
    · cases heq
    · refine ⟨hmissed hall, ?_⟩
      rw [h.sound.nGroups, hfull]
      refine h.room.resolve_left fun hroom => ?_
      rw [h.sound.nGroups, hfull] at hroom
      omega

/-- A new entry. -/
theorem Ready.insert (h : Ready bits keys t) {i : ℕ} {e : Entry δ}
    (hhash : e.hash = hashKeys bits keys e.keys)
    (hchained : Chained (t.slots.set i (some e)) fun e => e.hash.toNat % t.slots.length)
    (hperm : (entries (t.slots.set i (some e))).Perm (e :: entries t.slots)) :
    Sound bits keys ⟨t.slots.set i (some e), t.nGroups + 1⟩ where
  size := by
    right
    show IsCapacity (t.slots.set i (some e)).length
    rw [length_set]
    exact h.capacity
  chained := by
    show Chained _ fun e => _ % (t.slots.set i (some _)).length
    rwa [length_set]
  hashed e' he' := by
    rcases mem_cons.mp (hperm.mem_iff.mp he') with rfl | he'
    · exact hhash
    · exact h.sound.hashed e' he'
  nGroups := by
    show t.nGroups + 1 = _
    rw [hperm.length_eq, length_cons, h.sound.nGroups]
  load := by
    show (t.nGroups + 1) * 10 < (t.slots.set i (some e)).length * 7 ∨ _ ∨
      (t.slots.set i (some e)).length = _
    rw [length_set]
    exact h.room.imp id .inr

/-- An entry with the keys of the one in its slot. -/
theorem Sound.update (h : Sound bits keys t) {i : ℕ} {e e' : Entry δ}
    (hslot : t.slots.getD i none = some e) (hhash : e'.hash = e.hash) (hkeys : e'.keys = e.keys) :
    Sound bits keys ⟨t.slots.set i (some e'), t.nGroups⟩ := by
  obtain ⟨rest, hperm, hperm'⟩ := entries_replace hslot e'
  have hmem : e ∈ entries t.slots := hperm.mem_iff.mpr mem_cons_self
  have hlen : (t.slots.set i (some e')).length = t.slots.length := length_set
  refine ⟨?_, ?_, ?_, ?_, ?_⟩
  · refine h.size.imp (fun hnil => ?_) fun hcap => ?_
    · show t.slots.set i (some e') = []
      rw [hnil]
      rfl
    · show IsCapacity (t.slots.set i (some e')).length
      rwa [hlen]
  · show Chained (t.slots.set i (some e')) fun e => _ % (t.slots.set i (some e')).length
    rw [hlen]
    exact h.chained.replace hslot (by rw [hhash])
  · intro e'' he''
    rcases mem_cons.mp (hperm'.mem_iff.mp he'') with rfl | hrest
    · rw [hhash, hkeys]
      exact h.hashed e hmem
    · exact h.hashed e'' (hperm.mem_iff.mpr (mem_cons_of_mem _ hrest))
  · show t.nGroups = _
    rw [h.nGroups, hperm.length_eq, hperm'.length_eq]
    rfl
  · have hload := h.load
    show t.nGroups * 10 < (t.slots.set i (some e')).length * 7 ∨ t.slots.set i (some e') = [] ∨
      (t.slots.set i (some e')).length = _
    rw [hlen]
    refine hload.imp id (Or.imp (fun hnil => ?_) id)
    rw [hnil]
    rfl

end PgColumnar.Group
