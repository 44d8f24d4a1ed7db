import PgColumnar.Lib.OpenTable
import Mathlib.Data.List.Induction
import Mathlib.Data.List.ReduceOption
import Mathlib.Tactic.Ring

/-!
# The key set of the join fold

The join fold drains the dimension side of a join into a set of its keys
(`columnar_vector.c`).  The set is an open-addressing table that doubles when three quarters
of its slots are taken; growing inserts every key again, and that insert could grow too.  A
table whose key array reaches `MaxAllocSize` cannot be allocated.

Equality and hash procedures of the key type are parameters.

## Main definitions

* `KeyTable`, `insertKey`, `lookupKey` — the set as the source has it.
* `Filled` — what a table that stores these keys looks like.

## Main results

* `drainKeys_eq` — which keys a drain stores, and when it fails.
* `lookupKey_eq` — a key is found exactly if an equal one is stored.
-/

namespace PgColumnar.Agg

open Probe List Bool

/-- A hash, as a hash support function returns it. -/
abbrev Hash := BitVec 32

/-- The default equality and hash of a type, under one collation. -/
structure KeyType (δ : Type) where
  eq : δ → δ → Bool
  hash : δ → Hash

/-- What a hash operator class promises. -/
structure KeyType.Lawful {δ : Type} (K : KeyType δ) : Prop where
  refl : ∀ a, K.eq a a = true
  symm : ∀ a b, K.eq a b = true → K.eq b a = true
  trans : ∀ a b c, K.eq a b = true → K.eq b c = true → K.eq a c = true
  hash : ∀ a b, K.eq a b = true → K.hash a = K.hash b

/-- How an operation of the key set ends without a result. -/
inductive Failure where
  /-- The error `invalid memory alloc request size`. -/
  | invalidAlloc
  /-- The probe or the growth goes on forever. -/
  | endless
  deriving DecidableEq, Repr

/-- `MaxAllocSize` -/
def maxAllocSize : ℕ := 2 ^ 30 - 1

/-- `sizeof(Datum)` -/
def datumSize : ℕ := 8

/-- The slots of the table, each with a hash and a key if it is occupied. -/
structure KeyTable (δ : Type) where
  slots : List (Option (Hash × δ))
  nkeys : ℕ

variable {δ : Type} {K : KeyType δ} {keys : List δ} {t : KeyTable δ} {v : δ}

/-- `pgcolumnar_join_fold_reset_table` -/
def resetTable : KeyTable δ := ⟨[], 0⟩

def mustGrow (t : KeyTable δ) : Bool :=
  decide (t.slots.length = 0) || decide (t.slots.length * 3 < t.nkeys * 4)

/-- `pgcolumnar_join_fold_grow`, given the insert that it calls. -/
def growWith (insert : KeyTable δ → δ → Except Failure (KeyTable δ)) (t : KeyTable δ) :
    Except Failure (KeyTable δ) :=
  let nslots := if t.slots.length = 0 then 16 else t.slots.length * 2
  if maxAllocSize < datumSize * nslots then .error .invalidAlloc
  else (entries t.slots).foldlM (fun t e => insert t e.2) ⟨List.replicate nslots none, 0⟩

/-- Where the probe for a hash starts. -/
def startSlot (t : KeyTable δ) (h : Hash) : ℕ := h.toNat &&& (t.slots.length - 1)

def sameKey (K : KeyType δ) (value : δ) (e : Hash × δ) : Bool :=
  decide (e.1 = K.hash value) && K.eq e.2 value

/-- The probe loop of `pgcolumnar_join_fold_insert`. -/
def placeKey (K : KeyType δ) (t : KeyTable δ) (value : δ) : Except Failure (KeyTable δ) :=
  match probe t.slots (sameKey K value) t.slots.length (startSlot t (K.hash value)) with
  | .hit _ _ => .ok t
  | .empty i => .ok ⟨t.slots.set i (some (K.hash value, value)), t.nkeys + 1⟩
  | .exhausted => .error .endless

/-- `pgcolumnar_join_fold_insert`, with at most so many growths inside one another. -/
def insertWithin (K : KeyType δ) : ℕ → KeyTable δ → δ → Except Failure (KeyTable δ)
  | 0, t, value => if mustGrow t then .error .endless else placeKey K t value
  | depth + 1, t, value =>
    if mustGrow t then do placeKey K (← growWith (insertWithin K depth) t) value
    else placeKey K t value

/-- `pgcolumnar_join_fold_insert` -/
def insertKey (K : KeyType δ) (t : KeyTable δ) (value : δ) : Except Failure (KeyTable δ) :=
  insertWithin K 1 t value

/-- `pgcolumnar_join_fold_lookup` -/
def lookupKey (K : KeyType δ) (t : KeyTable δ) (value : δ) : Bool :=
  if t.nkeys = 0 then false
  else
    match probe t.slots (sameKey K value) t.slots.length (startSlot t (K.hash value)) with
    | .hit _ _ => true
    | _ => false

/-- The loop of `pgcolumnar_join_fold_drain`, over the keys of the rows it reads. -/
def drainKeys (K : KeyType δ) (values : List (Option δ)) : Except Failure (KeyTable δ) :=
  values.foldlM (fun t value =>
    match value with
    | none => .ok t
    | some v => insertKey K t v) resetTable

/-! ### Distinct keys -/

/-- A key, unless an equal one is there. -/
def addKey (K : KeyType δ) (keys : List δ) (v : δ) : List δ :=
  if keys.any fun k => K.eq k v then keys else v :: keys

/-- One key of each class of equal keys. -/
def distinctKeys (K : KeyType δ) (keys : List δ) : List δ := keys.foldl (addKey K) []

/-- No two of the keys are equal. -/
def Distinct (K : KeyType δ) (keys : List δ) : Prop := keys.Pairwise fun a b => K.eq a b = false

theorem KeyType.Lawful.eq_comm (hK : K.Lawful) (a b : δ) : K.eq a b = K.eq b a := by
  rw [Bool.eq_iff_iff]
  exact ⟨hK.symm a b, hK.symm b a⟩

theorem Distinct.perm {keys' : List δ} (hK : K.Lawful) (h : Distinct K keys)
    (hperm : keys.Perm keys') : Distinct K keys' := by
  apply List.Pairwise.perm h hperm
  intro a b hab
  rwa [hK.eq_comm]

theorem distinct_addKey (hK : K.Lawful) (h : Distinct K keys) (v : δ) :
    Distinct K (addKey K keys v) := by
  unfold addKey
  split
  · exact h
  · next hany =>
    refine List.Pairwise.cons ?_ h
    intro k hk
    rw [hK.eq_comm, eq_false_iff]
    intro heq
    exact hany (any_eq_true.mpr ⟨k, hk, heq⟩)

theorem length_addKey_le (K : KeyType δ) (keys : List δ) (v : δ) :
    keys.length ≤ (addKey K keys v).length := by
  unfold addKey
  split
  · exact le_refl _
  · simp

theorem length_distinctKeys_dropLast (K : KeyType δ) (keys : List δ) :
    (distinctKeys K keys.dropLast).length ≤ (distinctKeys K keys).length := by
  induction keys using List.reverseRecOn with
  | nil => exact le_refl _
  | append_singleton keys v =>
    rw [dropLast_concat]
    simpa [distinctKeys] using length_addKey_le K (distinctKeys K keys) v

/-- Every key is equal to one of those kept. -/
theorem any_addKey (hK : K.Lawful) (keys : List δ) (v w : δ) :
    ((addKey K keys v).any fun k => K.eq k w) = ((keys ++ [v]).any fun k => K.eq k w) := by
  unfold addKey
  split
  · next hany =>
    obtain ⟨k, hk, hkv⟩ := any_eq_true.mp hany
    rw [any_append, Bool.eq_iff_iff, Bool.or_eq_true, iff_self_or]
    intro hv
    have hvw : K.eq v w = true := by simpa using hv
    exact any_eq_true.mpr ⟨k, hk, hK.trans k v w hkv hvw⟩
  · simp [Bool.or_comm]

theorem any_distinctKeys (hK : K.Lawful) (keys : List δ) (w : δ) :
    ((distinctKeys K keys).any fun k => K.eq k w) = (keys.any fun k => K.eq k w) := by
  induction keys using List.reverseRecOn with
  | nil => rfl
  | append_singleton keys v ih =>
    have hstep : distinctKeys K (keys ++ [v]) = addKey K (distinctKeys K keys) v := by
      simp [distinctKeys]
    rw [hstep, any_addKey hK, any_append, any_append, ih]

/-- Nothing is left out of keys that are distinct already. -/
theorem foldl_addKey_of_distinct (l : List δ) (h : Distinct K (keys.reverse ++ l)) :
    l.foldl (addKey K) keys = l.reverse ++ keys := by
  induction l generalizing keys with
  | nil => rfl
  | cons v l ih =>
    have hnone : (keys.any fun k => K.eq k v) = false := by
      rw [any_eq_false]
      intro k hk
      have hkv := (pairwise_append.mp h).2.2 k (mem_reverse.mpr hk) v mem_cons_self
      simp [hkv]
    have hadd : addKey K keys v = v :: keys := by simp [addKey, hnone]
    rw [foldl_cons, hadd, ih (by simpa using h)]
    simp

/-! ### The table -/

/-- The number of keys above which the next insert fails. -/
def keyLimit : ℕ := 3 * 2 ^ 24

/-- The table has slots, and stores exactly the keys. -/
structure Filled (K : KeyType δ) (keys : List δ) (t : KeyTable δ) : Prop where
  size : ∃ k ≤ 22, t.slots.length = 2 ^ (k + 4)
  isOpen : Open (fun e : Hash × δ => e.1.toNat) t.slots
  nkeys : t.nkeys = keys.length
  hashed : ∀ e ∈ entries t.slots, e.1 = K.hash e.2
  perm : ((entries t.slots).map Prod.snd).Perm keys
  load : t.nkeys * 4 ≤ t.slots.length * 3 + 4

/-- The table stores exactly the keys, which are distinct. -/
structure Holds (K : KeyType δ) (keys : List δ) (t : KeyTable δ) : Prop where
  distinct : Distinct K keys
  table : t = resetTable ∧ keys = [] ∨ Filled K keys t

theorem Filled.startSlot_eq (h : Filled K keys t) (x : Hash) :
    startSlot t x = x.toNat % t.slots.length := by
  obtain ⟨k, -, hk⟩ := h.size
  rw [startSlot, hk, Nat.and_two_pow_sub_one_eq_mod]

theorem Filled.length_entries (h : Filled K keys t) : (entries t.slots).length = keys.length := by
  rw [← h.perm.length_eq, length_map]

/-- What the probe of a key says of the keys stored. -/
theorem Filled.find (h : Filled K keys t) (v : δ) : (∃ i, ∃ e ∈ entries t.slots, K.eq e.2 v = true ∧
      probe t.slots (sameKey K v) t.slots.length (startSlot t (K.hash v)) = .hit i e) ∨
    (∃ i, probe t.slots (sameKey K v) t.slots.length (startSlot t (K.hash v)) = .empty i ∧
      (∀ e ∈ entries t.slots, sameKey K v e = false) ∧
      Chained (t.slots.set i (some (K.hash v, v))) (fun e => e.1.toNat % t.slots.length) ∧
      (entries (t.slots.set i (some (K.hash v, v)))).Perm ((K.hash v, v) :: entries t.slots)) := by
  have hsame : ∀ e ∈ entries t.slots, sameKey K v e = true → e.1.toNat = (K.hash v).toNat := by
    intro e _ he
    simp only [sameKey, Bool.and_eq_true, decide_eq_true_eq] at he
    rw [he.1]
  rw [h.startSlot_eq]
  rcases h.isOpen.find (K.hash v, v) (sameKey K v) hsame with ⟨i, e, hmem, he, hprobe⟩ | hempty
  · simp only [sameKey, Bool.and_eq_true] at he
    exact .inl ⟨i, e, hmem, he.2, hprobe⟩
  · exact .inr hempty

/-- An entry is the key that is looked for if its key is equal. -/
theorem Filled.sameKey_eq (hK : K.Lawful) (h : Filled K keys t) {e : Hash × δ}
    (he : e ∈ entries t.slots) (v : δ) : sameKey K v e = K.eq e.2 v := by
  rw [sameKey, h.hashed e he, Bool.eq_iff_iff, Bool.and_eq_true, decide_eq_true_eq]
  exact and_iff_right_of_imp (hK.hash _ _)

theorem Filled.any_keys (h : Filled K keys t) (v : δ) :
    (keys.any fun k => K.eq k v) = ((entries t.slots).any fun e => K.eq e.2 v) := by
  rw [← h.perm.any_eq, any_map]
  rfl

/-- Without growth, an insert stores the key unless an equal one is there. -/
theorem Filled.placeKey (hK : K.Lawful) (h : Filled K keys t) (hgrow : mustGrow t = false) (v : δ) :
    ∃ t', placeKey K t v = .ok t' ∧ t'.slots.length = t.slots.length ∧
      Filled K (addKey K keys v) t' := by
  obtain ⟨k, hk22, hk⟩ := h.size
  have hpos : 2 ^ 4 ≤ 2 ^ (k + 4) := Nat.pow_le_pow_right (by decide) (by omega)
  simp only [mustGrow, or_eq_false_iff, decide_eq_false_iff_not, not_lt] at hgrow
  unfold Agg.placeKey
  rcases h.find v with ⟨i, e, hmem, heq, hprobe⟩ | ⟨i, hprobe, hnone, hchained, hperm⟩
  · have hany : (keys.any fun k => K.eq k v) = true := by
      rw [h.any_keys]
      exact any_eq_true.mpr ⟨e, hmem, heq⟩
    refine ⟨t, ?_, rfl, ?_⟩
    · rw [hprobe]
    · simpa [addKey, hany] using h
  · have hany : (keys.any fun k => K.eq k v) = false := by
      rw [h.any_keys, any_eq_false]
      intro e he
      rw [← h.sameKey_eq hK he, hnone e he]
      exact false_ne_true
    have hadd : addKey K keys v = v :: keys := by simp [addKey, hany]
    refine ⟨⟨t.slots.set i (some (K.hash v, v)), t.nkeys + 1⟩, ?_, length_set, ?_⟩
    · rw [hprobe]
    rw [hadd]
    constructor
    · exact ⟨k, hk22, by rw [length_set, hk]⟩
    · refine Open.set hchained hperm ?_
      rw [h.length_entries, ← h.nkeys]
      omega
    · simp [h.nkeys]
    · intro e he
      rcases mem_cons.mp (hperm.subset he) with rfl | he
      · rfl
      · exact h.hashed e he
    · exact (hperm.map Prod.snd).trans (h.perm.cons v)
    · show (t.nkeys + 1) * 4 ≤ (t.slots.set i _).length * 3 + 4
      rw [length_set]
      omega

/-! ### Growth -/

/-- With room for them, keys are inserted without another growth. -/
theorem Filled.insertAll (hK : K.Lawful) (es : List (Hash × δ)) (h : Filled K keys t)
    (hroom : (keys.length + es.length) * 4 ≤ t.slots.length * 3) :
    ∃ t', es.foldlM (fun t e => insertWithin K 0 t e.2) t = .ok t' ∧
      t'.slots.length = t.slots.length ∧
      Filled K ((es.map Prod.snd).foldl (addKey K) keys) t' := by
  induction es generalizing keys t with
  | nil => exact ⟨t, rfl, rfl, h⟩
  | cons e es ih =>
    have hpos := h.isOpen.length_pos
    have hgrow : mustGrow t = false := by
      simp only [length_cons] at hroom
      simp only [mustGrow, or_eq_false_iff, decide_eq_false_iff_not, not_lt, h.nkeys]
      constructor <;> omega
    obtain ⟨t', hplace, hlen, hfilled⟩ := h.placeKey hK hgrow e.2
    have hinsert : insertWithin K 0 t e.2 = .ok t' := by
      rw [insertWithin, hgrow]
      exact hplace
    have hroom' : ((addKey K keys e.2).length + es.length) * 4 ≤ t'.slots.length * 3 := by
      have hle : (addKey K keys e.2).length ≤ keys.length + 1 := by
        unfold addKey
        split <;> simp
      simp only [length_cons] at hroom
      rw [hlen]
      omega
    obtain ⟨t'', hrest, hlen', hfilled'⟩ := ih hfilled hroom'
    refine ⟨t'', ?_, hlen'.trans hlen, hfilled'⟩
    rw [foldlM_cons, hinsert]
    exact hrest

/-- The keys stored may be listed in another order. -/
theorem Filled.of_perm {keys' : List δ} (h : Filled K keys t) (hperm : keys.Perm keys') :
    Filled K keys' t :=
  ⟨h.size, h.isOpen, by rw [h.nkeys, hperm.length_eq], h.hashed, h.perm.trans hperm, h.load⟩

theorem filled_replicate {k : ℕ} (hk : k ≤ 22) :
    Filled K [] ⟨List.replicate (2 ^ (k + 4)) none, 0⟩ where
  size := ⟨k, hk, length_replicate⟩
  isOpen := open_replicate (Nat.two_pow_pos _) _
  nkeys := rfl
  hashed := by simp
  perm := by simp
  load := by simp

/-- The table behind a growth stores the same keys. -/
theorem growWith_eq (hK : K.Lawful) {k : ℕ} (hk : k ≤ 22) (hdistinct : Distinct K keys)
    (hperm : ((entries t.slots).map Prod.snd).Perm keys)
    (hslots : (if t.slots.length = 0 then 16 else t.slots.length * 2) = 2 ^ (k + 4))
    (hroom : keys.length * 4 ≤ 2 ^ (k + 4) * 3) :
    ∃ t', growWith (insertWithin K 0) t = .ok t' ∧ t'.slots.length = 2 ^ (k + 4) ∧
      Filled K keys t' := by
  have hlimit : ¬ maxAllocSize < datumSize * 2 ^ (k + 4) := by
    have hle : 2 ^ (k + 4) ≤ 2 ^ (22 + 4) := Nat.pow_le_pow_right (by decide) (by omega)
    norm_num [maxAllocSize, datumSize] at hle ⊢
    omega
  have hlen : (entries t.slots).length = keys.length := by
    rw [← hperm.length_eq, length_map]
  obtain ⟨t', hfold, hlen', hfilled⟩ :=
    (filled_replicate (K := K) hk).insertAll hK (entries t.slots)
    (by simpa [hlen] using hroom)
  have hall : ((entries t.slots).map Prod.snd).foldl (addKey K) [] =
      ((entries t.slots).map Prod.snd).reverse := by
    rw [foldl_addKey_of_distinct, append_nil]
    exact hdistinct.perm hK hperm.symm
  rw [hall] at hfilled
  have hkeys := hfilled.of_perm ((reverse_perm _).trans hperm)
  refine ⟨t', ?_, by simpa using hlen', hkeys⟩
  unfold growWith
  rw [hslots]
  simp only [hlimit, if_false]
  exact hfold

/-! ### The operations -/

/-- Only in a table of the greatest size is an insert refused. -/
theorem Filled.mustGrow_of_limit (h : Filled K keys t) (hlimit : keyLimit < keys.length) :
    mustGrow t = true ∧ t.slots.length = 2 ^ 26 := by
  obtain ⟨k, hk22, hk⟩ := h.size
  have hload := h.load
  rw [h.nkeys, hk] at hload
  have hk : k = 22 := by
    by_contra hne
    have hle : 2 ^ (k + 4) ≤ 2 ^ (21 + 4) := Nat.pow_le_pow_right (by decide) (by omega)
    norm_num [keyLimit] at hlimit hle
    omega
  subst hk
  refine ⟨?_, by assumption⟩
  simp only [mustGrow, Bool.or_eq_true, decide_eq_true_eq, h.nkeys]
  norm_num [keyLimit] at hlimit ⊢
  omega

/-- A filled table whose insert grows can double. -/
theorem Filled.room_of_mustGrow (h : Filled K keys t) (hgrow : mustGrow t = true)
    (hlimit : keys.length ≤ keyLimit) : ∃ k ≤ 22, t.slots.length * 2 = 2 ^ (k + 4) := by
  obtain ⟨k, hk22, hk⟩ := h.size
  simp only [mustGrow, Bool.or_eq_true, decide_eq_true_eq, h.nkeys] at hgrow
  refine ⟨k + 1, ?_, by rw [hk]; ring⟩
  by_contra hge
  have hk : k = 22 := by omega
  subst hk
  norm_num [keyLimit] at hlimit
  omega

/-- **Inserting ends**: the key is stored unless an equal one is there, or the table has
reached its greatest size. -/
theorem insertKey_eq (hK : K.Lawful) (h : Holds K keys t) (v : δ) :
    if keyLimit < keys.length then insertKey K t v = .error .invalidAlloc
    else ∃ t', insertKey K t v = .ok t' ∧ Holds K (addKey K keys v) t' := by
  have hdistinct := distinct_addKey hK h.distinct v
  unfold insertKey insertWithin
  split
  · next hlimit =>
    rcases h.table with ⟨-, rfl⟩ | hfilled
    · exact absurd hlimit (Nat.not_lt_zero _)
    · obtain ⟨hgrow, hlen⟩ := hfilled.mustGrow_of_limit hlimit
      have hfail : growWith (insertWithin K 0) t = .error .invalidAlloc := by
        unfold growWith
        norm_num [hlen, maxAllocSize, datumSize]
      rw [if_pos hgrow, hfail]
      rfl
  · next hlimit =>
    by_cases hgrow : mustGrow t = true
    · -- the table grows first, and the key is placed in the larger one
      have hslots : ∃ k ≤ 22, (if t.slots.length = 0 then 16 else t.slots.length * 2) =
        2 ^ (k + 4) ∧
          keys.length * 4 ≤ 2 ^ (k + 4) * 3 ∧ ((entries t.slots).map Prod.snd).Perm keys := by
        rcases h.table with ⟨rfl, rfl⟩ | hfilled
        · exact ⟨0, by omega, rfl, by simp, List.Perm.refl _⟩
        · obtain ⟨k, hk22, hk⟩ := hfilled.room_of_mustGrow hgrow (not_lt.mp hlimit)
          have hload := hfilled.load
          obtain ⟨j, -, hj⟩ := hfilled.size
          have hj16 : 2 ^ 4 ≤ 2 ^ (j + 4) := Nat.pow_le_pow_right (by decide) (by omega)
          rw [hfilled.nkeys] at hload
          refine ⟨k, hk22, by rw [if_neg (by omega), hk], ?_, hfilled.perm⟩
          rw [← hk]
          omega
      obtain ⟨k, hk22, hk, hroom, hperm⟩ := hslots
      obtain ⟨t', hg, hlen, hfilled⟩ := growWith_eq hK hk22 h.distinct hperm hk hroom
      have hgrow' : mustGrow t' = false := by
        have hpos := hfilled.isOpen.length_pos
        simp only [mustGrow, or_eq_false_iff, decide_eq_false_iff_not, not_lt, hfilled.nkeys]
        constructor <;> omega
      obtain ⟨t'', hplace, -, hfilled'⟩ := hfilled.placeKey hK hgrow' v
      refine ⟨t'', ?_, hdistinct, .inr hfilled'⟩
      rw [if_pos hgrow, hg]
      exact hplace
    · rw [not_eq_true] at hgrow
      rcases h.table with ⟨rfl, -⟩ | hfilled
      · cases hgrow
      · obtain ⟨t', hplace, -, hfilled'⟩ := hfilled.placeKey hK hgrow v
        exact ⟨t', by rw [if_neg (by simp [hgrow])]; exact hplace, hdistinct, .inr hfilled'⟩

/-- **A key is found exactly if an equal one is stored.** -/
theorem lookupKey_eq (hK : K.Lawful) (h : Holds K keys t) (v : δ) :
    lookupKey K t v = keys.any fun k => K.eq k v := by
  unfold lookupKey
  rcases h.table with ⟨rfl, rfl⟩ | hfilled
  · rfl
  · split
    · next hzero =>
      rw [hfilled.nkeys, length_eq_zero_iff] at hzero
      rw [hzero]
      rfl
    · rw [hfilled.any_keys]
      rcases hfilled.find v with ⟨i, e, hmem, heq, hprobe⟩ | ⟨i, hprobe, hnone, -, -⟩
      · rw [hprobe, eq_comm, any_eq_true]
        exact ⟨e, hmem, heq⟩
      · rw [hprobe, eq_comm, any_eq_false]
        intro e he
        rw [← hfilled.sameKey_eq hK he, hnone e he]
        exact false_ne_true

/-- Before its last key, a drain has never reached the greatest size. -/
def FitsKeys (K : KeyType δ) (keys : List δ) : Prop :=
  (distinctKeys K keys.dropLast).length ≤ keyLimit

/-- **Which keys a drain stores, and when it fails.** -/
theorem drainKeys_eq (hK : K.Lawful) (values : List (Option δ)) : (FitsKeys K values.reduceOption →
      ∃ t, drainKeys K values = .ok t ∧ Holds K (distinctKeys K values.reduceOption) t) ∧
    (¬ FitsKeys K values.reduceOption → drainKeys K values = .error .invalidAlloc) := by
  induction values using List.reverseRecOn with
  | nil => exact ⟨fun _ => ⟨resetTable, rfl, .nil, .inl ⟨rfl, rfl⟩⟩, fun hfits =>
    absurd (Nat.zero_le _) hfits⟩
  | append_singleton values value ih =>
    have hdrain : drainKeys K (values ++ [value]) = (drainKeys K values).bind fun t =>
        match value with
        | none => .ok t
        | some v => insertKey K t v := by
      unfold drainKeys
      rw [foldlM_append]
      simp only [foldlM_cons, foldlM_nil, bind_pure]
      rfl
    rw [hdrain, reduceOption_append, reduceOption_singleton]
    cases value with
    | none =>
      rw [Option.toList_none, append_nil]
      constructor
      · intro hfits
        obtain ⟨t, ht, hholds⟩ := ih.1 hfits
        exact ⟨t, by rw [ht]; rfl, hholds⟩
      · intro hfits
        rw [ih.2 hfits]
        rfl
    | some v =>
      rw [Option.toList_some]
      have hstep : distinctKeys K (values.reduceOption ++ [v]) =
          addKey K (distinctKeys K values.reduceOption) v := by
        simp [distinctKeys]
      simp only [FitsKeys, dropLast_concat]
      constructor
      · intro hfits
        obtain ⟨t, ht, hholds⟩ := ih.1 (le_trans (length_distinctKeys_dropLast K _) hfits)
        have hinsert := insertKey_eq hK hholds v
        rw [if_neg (not_lt.mpr hfits)] at hinsert
        obtain ⟨t', ht', hholds'⟩ := hinsert
        rw [hstep, ht]
        exact ⟨t', ht', hholds'⟩
      · intro hfits
        by_cases hbefore : FitsKeys K values.reduceOption
        · obtain ⟨t, ht, hholds⟩ := ih.1 hbefore
          have hinsert := insertKey_eq hK hholds v
          rw [if_pos (not_le.mp hfits)] at hinsert
          rw [ht]
          exact hinsert
        · rw [ih.2 hbefore]
          rfl

end PgColumnar.Agg
