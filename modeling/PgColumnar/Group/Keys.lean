import PgColumnar.Lib.Compare
import PgColumnar.Lib.Grouping
import Mathlib.Data.BitVec

/-!
# Group keys

The keys of a grouped aggregate (`columnar_vector.c`).  The node compares two keys in three
ways: the probe of its hash table compares the Datums of some types bit by bit, the merge past
the cap uses the equality of the type, and the sort that comes before it uses the order of the
type.

A value is whatever a Datum stands for; `bits` are the bits of the Datum itself.  Equality,
hash and order procedures of the key types are parameters.

## Main definitions

* `keysEqual`, `mergeSame`, `compareKeys` — the probe, the merge and the sort.

## Main results

* `GroupKey.Lawful.hash_eq` — equal keys have equal hashes.
* `classes_compareKeys` — the keys that the sort does not tell apart are the equal ones.
-/

namespace PgColumnar.Group

open Compare Grouping List Bool

abbrev Oid := BitVec 32

abbrev Hash := BitVec 32

/-- A group key: an expression over a row, and the procedures of its type. -/
structure GroupKey (δ : Type) where
  type : Oid
  expr : List (Option δ) → Option δ
  eqFn : δ → δ → Bool
  hashFn : δ → Hash
  cmp : δ → δ → ℤ

/-- `pgcolumnar_groupagg_simple_key`: `int2`, `int4`, `int8`, `oid`, `date`, `time`, `timestamp`
and `timestamptz`. -/
def simpleKey (typ : Oid) : Bool :=
  [21, 23, 20, 26, 1082, 1083, 1114, 1184].contains typ

/-- `pgcolumnar_groupagg_hash_datum` -/
def hashDatum (d : BitVec 64) : Hash :=
  let x := d ^^^ (d >>> 33)
  let x := x * 0xff51afd7ed558ccd#64
  let x := x ^^^ (x >>> 33)
  let x := x * 0xc4ceb9fe1a85ec53#64
  (x ^^^ (x >>> 33)).setWidth 32

/-- PostgreSQL's `hash_combine`. -/
def hashCombine (a b : Hash) : Hash := a ^^^ (b + 0x9e3779b9#32 + (a <<< 6) + (a >>> 2))

variable {δ : Type} (bits : δ → BitVec 64)

/-- The equality of the probe. -/
def GroupKey.probeEq (k : GroupKey δ) (a b : δ) : Bool :=
  if simpleKey k.type then decide (bits a = bits b) else k.eqFn a b

/-- What a key adds to the hash. -/
def GroupKey.hash (k : GroupKey δ) : Option δ → Hash
  | none => 0x9e3779b9#32
  | some d => if simpleKey k.type then hashDatum (bits d) else k.hashFn d

/-- Two nulls are equal. -/
def optEqual (eq : δ → δ → Bool) : Option δ → Option δ → Bool
  | none, none => true
  | some a, some b => eq a b
  | _, _ => false

/-- Two rows of keys, compared column by column. -/
def allEqual : List (δ → δ → Bool) → List (Option δ) → List (Option δ) → Bool
  | [], _, _ => true
  | eq :: eqs, a, b => optEqual eq (a.headD none) (b.headD none) && allEqual eqs a.tail b.tail

/-- `pgcolumnar_groupagg_keys_equal` -/
def keysEqual (keys : List (GroupKey δ)) : List (Option δ) → List (Option δ) → Bool :=
  allEqual (keys.map fun k => k.probeEq bits)

/-- `pgcolumnar_groupagg_merge_same` -/
def mergeSame (keys : List (GroupKey δ)) : List (Option δ) → List (Option δ) → Bool :=
  allEqual (keys.map GroupKey.eqFn)

/-- The loop of `pgcolumnar_groupagg_lookup` over the keys. -/
def hashFrom (hash : Hash) : List (GroupKey δ) → List (Option δ) → Hash
  | [], _ => hash
  | k :: ks, a => hashFrom (hashCombine hash (k.hash bits (a.headD none))) ks a.tail

def hashKeys (keys : List (GroupKey δ)) (keyvals : List (Option δ)) : Hash :=
  hashFrom bits 0 keys keyvals

/-- The sort's comparison of the key columns. -/
def compareKeys : List (GroupKey δ) → List (Option δ) → List (Option δ) → ℤ
  | [], _, _ => 0
  | k :: ks, a, b => lex (fun a b => nullsLast k.cmp (a.headD none) (b.headD none))
      (fun a b => compareKeys ks a.tail b.tail) a b

/-- What the hash operator class of a key type promises, and that a value is passed by its bits
if the probe looks at nothing else. -/
structure GroupKey.Lawful (k : GroupKey δ) : Prop where
  equivalence : Equivalence (RelOf k.eqFn)
  hash : ∀ a b, k.eqFn a b = true → k.hashFn a = k.hashFn b
  bits : simpleKey k.type = true → ∀ a b, bits a = bits b → k.eqFn a b = true

/-- What the btree operator class of a key type promises. -/
structure GroupKey.Sortable (k : GroupKey δ) : Prop where
  total : TotalCmp k.cmp
  eq_iff : ∀ a b, k.eqFn a b = true ↔ k.cmp a b = 0

variable {bits} {keys : List (GroupKey δ)} {a b : List (Option δ)}

theorem equivalence_optEqual {eq : δ → δ → Bool} (heq : Equivalence (RelOf eq)) :
    Equivalence (RelOf (optEqual eq)) where
  refl a := by
    cases a with
    | none => rfl
    | some a => exact heq.refl a
  symm {a b} h := by
    cases a <;> cases b <;> first | exact h | exact heq.symm h
  trans {a b c} hab hbc := by
    cases a <;> cases b <;> cases c <;> first
      | rfl
      | exact hab
      | exact hbc
      | exact absurd hab false_ne_true
      | exact heq.trans hab hbc

theorem equivalence_allEqual {eqs : List (δ → δ → Bool)}
    (h : ∀ eq ∈ eqs, Equivalence (RelOf eq)) : Equivalence (RelOf (allEqual eqs)) := by
  induction eqs with
  | nil => exact ⟨fun _ => rfl, fun _ => rfl, fun _ _ => rfl⟩
  | cons eq eqs ih =>
    have hhead := equivalence_optEqual (h eq mem_cons_self)
    have htail := ih fun eq' heq' => h eq' (mem_cons_of_mem _ heq')
    unfold RelOf at hhead htail ⊢
    simp only [allEqual, and_eq_true]
    exact ⟨fun _ => ⟨hhead.refl _, htail.refl _⟩, fun hab => ⟨hhead.symm hab.1, htail.symm hab.2⟩,
      fun hab hbc => ⟨hhead.trans hab.1 hbc.1, htail.trans hab.2 hbc.2⟩⟩

theorem optEqual_mono {eq eq' : δ → δ → Bool} (h : ∀ a b, eq a b = true → eq' a b = true)
    {a b : Option δ} (hab : optEqual eq a b = true) : optEqual eq' a b = true := by
  cases a <;> cases b <;> first | exact hab | exact h _ _ hab

variable {k : GroupKey δ}

theorem equivalence_probeEq (h : k.Lawful bits) : Equivalence (RelOf (k.probeEq bits)) := by
  unfold RelOf GroupKey.probeEq
  cases simpleKey k.type with
  | true =>
    simp only [if_true, decide_eq_true_eq]
    exact ⟨fun _ => rfl, Eq.symm, Eq.trans⟩
  | false => exact h.equivalence

theorem equivalence_keysEqual (h : ∀ k ∈ keys, k.Lawful bits) :
    Equivalence (RelOf (keysEqual bits keys)) := by
  apply equivalence_allEqual
  intro eq heq
  obtain ⟨k, hk, rfl⟩ := mem_map.mp heq
  exact equivalence_probeEq (h k hk)

theorem equivalence_mergeSame (h : ∀ k ∈ keys, k.Lawful bits) :
    Equivalence (RelOf (mergeSame keys)) := by
  apply equivalence_allEqual
  intro eq heq
  obtain ⟨k, hk, rfl⟩ := mem_map.mp heq
  exact (h k hk).equivalence

theorem GroupKey.Lawful.eqFn_of_probeEq (h : k.Lawful bits) {a b : δ}
    (hab : k.probeEq bits a b = true) : k.eqFn a b = true := by
  unfold GroupKey.probeEq at hab
  split at hab
  · next hsimple => exact h.bits hsimple a b (of_decide_eq_true hab)
  · exact hab

/-- **The probe never takes keys for equal that are not.** -/
theorem mergeSame_of_keysEqual (h : ∀ k ∈ keys, k.Lawful bits)
    (hab : keysEqual bits keys a b = true) : mergeSame keys a b = true := by
  unfold keysEqual mergeSame at *
  induction keys generalizing a b with
  | nil => rfl
  | cons k ks ih =>
    simp only [map_cons, allEqual, and_eq_true] at hab ⊢
    have hk := h k mem_cons_self
    exact ⟨optEqual_mono (fun _ _ => hk.eqFn_of_probeEq) hab.1,
      ih (fun k' hk' => h k' (mem_cons_of_mem _ hk')) hab.2⟩

/-! ### The hash -/

theorem GroupKey.Lawful.hash_eq (h : k.Lawful bits) {a b : Option δ}
    (hab : optEqual (k.probeEq bits) a b = true) : k.hash bits a = k.hash bits b := by
  cases a with
  | none =>
    cases b with
    | none => rfl
    | some b => cases hab
  | some a =>
    cases b with
    | none => cases hab
    | some b =>
      simp only [optEqual, GroupKey.probeEq] at hab
      simp only [GroupKey.hash]
      split at hab
      · next hsimple => rw [if_pos hsimple, if_pos hsimple, of_decide_eq_true hab]
      · next hsimple => rw [if_neg hsimple, if_neg hsimple, h.hash a b hab]

theorem hashFrom_congr (h : ∀ k ∈ keys, k.Lawful bits) (hab : keysEqual bits keys a b = true)
    (hash : Hash) : hashFrom bits hash keys a = hashFrom bits hash keys b := by
  unfold keysEqual at hab
  induction keys generalizing a b hash with
  | nil => rfl
  | cons k ks ih =>
    simp only [map_cons, allEqual, and_eq_true] at hab
    simp only [hashFrom]
    rw [(h k mem_cons_self).hash_eq hab.1]
    exact ih (fun k' hk' => h k' (mem_cons_of_mem _ hk')) hab.2 _

/-! ### The order -/

theorem totalCmp_compareKeys (h : ∀ k ∈ keys, k.Sortable) : TotalCmp (compareKeys keys) := by
  induction keys with
  | nil =>
    exact ⟨fun _ _ => rfl, fun _ _ _ _ _ => le_refl _⟩
  | cons k ks ih =>
    have hhead := (h k mem_cons_self).total.nullsLast.comap fun a : List (Option δ) => a.headD none
    have htail := (ih fun k' hk' => h k' (mem_cons_of_mem _ hk')).comap
      fun a : List (Option δ) => a.tail
    exact hhead.lex htail

theorem optEqual_iff (h : k.Sortable) (a b : Option δ) :
    optEqual k.eqFn a b = true ↔ nullsLast k.cmp a b = 0 := by
  cases a <;> cases b <;> simp [optEqual, nullsLast, h.eq_iff]

theorem mergeSame_iff (h : ∀ k ∈ keys, k.Sortable) (a b : List (Option δ)) :
    mergeSame keys a b = true ↔ compareKeys keys a b = 0 := by
  unfold mergeSame
  induction keys generalizing a b with
  | nil => simp [allEqual, compareKeys]
  | cons k ks ih =>
    simp only [map_cons, allEqual, and_eq_true, compareKeys, lex_eq_zero]
    rw [optEqual_iff (h k mem_cons_self), ih (fun k' hk' => h k' (mem_cons_of_mem _ hk'))]

/-- **The keys that the sort does not tell apart are the equal ones.** -/
theorem classes_compareKeys (h : ∀ k ∈ keys, k.Sortable) :
    SortMerge.Classes (fun a b => compareKeys keys a b ≤ 0) (mergeSame keys) where
  trans := (totalCmp_compareKeys h).trans
  same_iff a b := by
    have hswap := (totalCmp_compareKeys h).le_swap (a := a) (b := b)
    rw [mergeSame_iff h]
    constructor
    · intro hzero
      exact ⟨le_of_eq hzero, hswap.mpr (le_of_eq hzero.symm)⟩
    · intro hle
      exact le_antisymm hle.1 (hswap.mp hle.2)

end PgColumnar.Group
