import Mathlib.Data.List.GetD
import Mathlib.Data.Nat.ModEq

/-!
# Open addressing with linear probing

A hash table is a list of slots, each empty or holding an entry.  A probe starts
at the slot of the hash and walks cyclically until it meets an empty slot or an
entry that satisfies a test; it stops as long as one slot is empty.

## Main definitions

* `probe` — the walk from a slot to an entry or an empty slot.
* `Chained` — no entry is behind an empty slot of its walk.

## Main results

* `Chained.set` — kept by an insertion where the walk ended.
-/

namespace Probe

open List Nat

variable {α : Type}

/-- The three ways a probe can end. -/
inductive Outcome (α : Type) where
  | hit (slot : ℕ) (a : α)
  | empty (slot : ℕ)
  | exhausted

/-- Walk from slot `s` until an empty slot or an entry satisfying `p`. -/
def probe (t : List (Option α)) (p : α → Bool) : ℕ → ℕ → Outcome α
  | 0, _ => .exhausted
  | fuel + 1, s =>
    match t.getD s none with
    | none => .empty s
    | some a => if p a then .hit s a else probe t p fuel ((s + 1) % t.length)

/-- The slot after `i` steps of the walk that starts at `s`. -/
def slotAt (t : List (Option α)) (s i : ℕ) : Option α := t.getD ((s + i) % t.length) none

/-- The first `i` slots of a walk hold entries that fail the test. -/
def Passed (t : List (Option α)) (p : α → Bool) (s i : ℕ) : Prop :=
  ∀ j < i, ∃ b, slotAt t s j = some b ∧ p b = false

theorem slotAt_succ (t : List (Option α)) (s i : ℕ) :
    slotAt t ((s + 1) % t.length) i = slotAt t s (i + 1) := by
  unfold slotAt
  rw [mod_add_mod, add_assoc, add_comm 1 i]

variable {t : List (Option α)} {s : ℕ}

theorem slotAt_zero (hs : s < t.length) : slotAt t s 0 = t.getD s none := by
  unfold slotAt
  rw [add_zero, mod_eq_of_lt hs]

variable {p : α → Bool} {a : α}

theorem Passed.succ {i : ℕ} (h0 : slotAt t s 0 = some a) (ha : p a = false)
    (h : Passed t p ((s + 1) % t.length) i) : Passed t p s (i + 1) := by
  intro j hj
  cases j with
  | zero => exact ⟨a, h0, ha⟩
  | succ j =>
    obtain ⟨b, hb, hpb⟩ := h j (by omega)
    exact ⟨b, by rw [← slotAt_succ]; exact hb, hpb⟩

/-- What the outcome of a probe says about the slots it walked over. -/
theorem probe_spec (p : α → Bool) (fuel : ℕ) (hs : s < t.length) :
    match probe t p fuel s with
    | .hit e a => p a = true ∧
        ∃ i < fuel, e = (s + i) % t.length ∧ slotAt t s i = some a ∧ Passed t p s i
    | .empty e => ∃ i < fuel, e = (s + i) % t.length ∧ slotAt t s i = none ∧ Passed t p s i
    | .exhausted => Passed t p s fuel := by
  induction fuel generalizing s with
  | zero =>
    intro j hj
    omega
  | succ fuel ih =>
    have hpos : 0 < t.length := zero_lt_of_lt hs
    have h0 := slotAt_zero hs
    rw [probe]
    cases hslot : t.getD s none with
    | none =>
      refine ⟨0, succ_pos fuel, ?_, ?_, ?_⟩
      · rw [add_zero, mod_eq_of_lt hs]
      · rw [h0, hslot]
      · intro j hj
        omega
    | some a =>
      rw [hslot] at h0
      by_cases ha : p a = true
      · simp only [ha, if_true]
        refine ⟨trivial, 0, succ_pos fuel, ?_, h0, fun j hj => absurd hj (not_lt_zero j)⟩
        rw [add_zero, mod_eq_of_lt hs]
      · have hfalse : p a = false := by simpa using ha
        simp only [ha, Bool.false_eq_true, if_false]
        have hih := ih (s := (s + 1) % t.length) (mod_lt _ hpos)
        revert hih
        cases probe t p fuel ((s + 1) % t.length) with
        | hit e b =>
          rintro ⟨hb, i, hi, he, hslot', hpassed⟩
          refine ⟨hb, i + 1, by omega, ?_, by rw [← slotAt_succ]; exact hslot',
            Passed.succ h0 hfalse hpassed⟩
          rw [he, mod_add_mod, add_assoc, add_comm 1 i]
        | empty e =>
          rintro ⟨i, hi, he, hslot', hpassed⟩
          refine ⟨i + 1, by omega, ?_, by rw [← slotAt_succ]; exact hslot',
            Passed.succ h0 hfalse hpassed⟩
          rw [he, mod_add_mod, add_assoc, add_comm 1 i]
        | exhausted =>
          exact fun hpassed => Passed.succ h0 hfalse hpassed

variable {e : ℕ}

theorem probe_hit {fuel : ℕ} (hs : s < t.length)
    (h : probe t p fuel s = .hit e a) : p a = true ∧ some a ∈ t := by
  have hspec := probe_spec p fuel hs
  rw [h] at hspec
  obtain ⟨ha, i, -, -, hslot, -⟩ := hspec
  refine ⟨ha, ?_⟩
  have hlt : (s + i) % t.length < t.length := mod_lt _ (zero_lt_of_lt hs)
  rw [slotAt, getD_eq_getElem _ _ hlt] at hslot
  rw [← hslot]
  exact getElem_mem hlt

theorem probe_hit_slot {fuel : ℕ}
    (hs : s < t.length) (h : probe t p fuel s = .hit e a) : t.getD e none = some a := by
  have hspec := probe_spec p fuel hs
  rw [h] at hspec
  obtain ⟨-, i, -, he, hslot, -⟩ := hspec
  rw [he]
  exact hslot

theorem probe_empty {fuel : ℕ} (hs : s < t.length)
    (h : probe t p fuel s = .empty e) : e < t.length ∧ t.getD e none = none := by
  have hspec := probe_spec p fuel hs
  rw [h] at hspec
  obtain ⟨i, -, he, hslot, -⟩ := hspec
  exact ⟨he ▸ mod_lt _ (zero_lt_of_lt hs), by rw [he]; exact hslot⟩

/-- Every slot is reached within one turn of the table. -/
theorem exists_step {m : ℕ} (hs : s < m) (he : e < m) : ∃ i < m, (s + i) % m = e := by
  rcases lt_or_ge e s with h | h
  · refine ⟨e + m - s, by omega, ?_⟩
    rw [show s + (e + m - s) = e + m by omega, add_mod_right, mod_eq_of_lt he]
  · refine ⟨e - s, by omega, ?_⟩
    rw [show s + (e - s) = e by omega, mod_eq_of_lt he]

/-- **The walk stops as long as one slot is empty.** -/
theorem probe_ne_exhausted (hs : s < t.length) (he : e < t.length) (hempty : t.getD e none = none) :
    probe t p t.length s ≠ .exhausted := by
  intro h
  have hspec := probe_spec p t.length hs
  rw [h] at hspec
  obtain ⟨i, hi, hie⟩ := exists_step hs he
  obtain ⟨b, hb, -⟩ := hspec i hi
  rw [slotAt, hie, hempty] at hb
  exact absurd hb (by simp)

/-- A table with fewer entries than slots has an empty slot. -/
theorem exists_empty (h : t.countP Option.isSome < t.length) :
    ∃ e < t.length, t.getD e none = none := by
  by_contra hall
  push Not at hall
  have hfull : t.countP Option.isSome = t.length := by
    rw [countP_eq_length]
    intro o ho
    obtain ⟨e, he, rfl⟩ := getElem_of_mem ho
    have hne := hall e he
    rw [getD_eq_getElem _ _ he] at hne
    exact Option.isSome_iff_ne_none.mpr hne
  omega

/-! ### The invariant -/

/-- From the hash slot of an entry to the entry no slot is empty. -/
def Chained (t : List (Option α)) (hash : α → ℕ) : Prop :=
  ∀ s < t.length, ∀ a, t.getD s none = some a →
    ∃ i < t.length, s = (hash a + i) % t.length ∧ ∀ j < i, slotAt t (hash a) j ≠ none

variable {hash : α → ℕ}

/-- **In a chained table a stored entry that passes the test is found** (or another
entry that passes it). -/
theorem exists_probe_hit
    (ht : Chained t hash) (hmem : some a ∈ t) (hhash : hash a < t.length) (ha : p a = true) :
    ∃ e b, probe t p t.length (hash a) = .hit e b := by
  obtain ⟨s, hs, hsa⟩ := getElem_of_mem hmem
  obtain ⟨i, hi, hslot, hbefore⟩ := ht s hs a (by rw [getD_eq_getElem _ _ hs, hsa])
  have hstored : slotAt t (hash a) i = some a := by
    rw [slotAt, ← hslot, getD_eq_getElem _ _ hs, hsa]
  have hspec := probe_spec p t.length hhash
  revert hspec
  cases probe t p t.length (hash a) with
  | hit e b => exact fun _ => ⟨e, b, rfl⟩
  | empty e =>
    -- the walk cannot stop at an empty slot before the entry, nor pass over it
    rintro ⟨k, -, -, hnone, hpassed⟩
    exfalso
    rcases lt_trichotomy i k with h | rfl | h
    · obtain ⟨b, hb, hpb⟩ := hpassed i h
      rw [hstored] at hb
      obtain rfl := Option.some.inj hb
      rw [ha] at hpb
      exact absurd hpb (by simp)
    · rw [hstored] at hnone
      exact absurd hnone (by simp)
    · exact hbefore k h hnone
  | exhausted =>
    intro hpassed
    exfalso
    obtain ⟨b, hb, hpb⟩ := hpassed i hi
    rw [hstored] at hb
    obtain rfl := Option.some.inj hb
    rw [ha] at hpb
    exact absurd hpb (by simp)

theorem chained_replicate_none (m : ℕ) (hash : α → ℕ) :
    Chained (List.replicate m (none : Option α)) hash := by
  intro s hs a ha
  rw [getD_eq_getElem _ _ hs, getElem_replicate] at ha
  exact absurd ha (by simp)

theorem slotAt_set_ne_none {j : ℕ}
    (h : slotAt t s j ≠ none) : slotAt (t.set e (some a)) s j ≠ none := by
  unfold slotAt at *
  rw [length_set, getD_eq_getElem?_getD, getElem?_set]
  rw [getD_eq_getElem?_getD] at h
  split
  · split
    · simp
    · next hlt =>
      rw [getElem?_eq_none (by omega)] at h
      exact absurd rfl h
  · exact h

/-- **Storing an entry where its own probe ended keeps the table chained.** -/
theorem Chained.set (ht : Chained t hash) (hhash : hash a < t.length)
    (he : probe t p t.length (hash a) = .empty e) : Chained (t.set e (some a)) hash := by
  intro s hs b hb
  rw [length_set] at hs ⊢
  by_cases hse : e = s
  · subst hse
    rw [getD_eq_getElem _ _ (by rwa [length_set]), getElem_set_self] at hb
    obtain rfl := Option.some.inj hb
    have hspec := probe_spec p t.length hhash
    rw [he] at hspec
    obtain ⟨i, hi, hei, -, hpassed⟩ := hspec
    refine ⟨i, hi, hei, ?_⟩
    intro j hj
    obtain ⟨c, hc, -⟩ := hpassed j hj
    exact slotAt_set_ne_none (by rw [hc]; simp)
  · rw [getD_eq_getElem?_getD, getElem?_set_ne hse, ← getD_eq_getElem?_getD] at hb
    obtain ⟨i, hi, hslot, hbefore⟩ := ht s hs b hb
    exact ⟨i, hi, hslot, fun j hj => slotAt_set_ne_none (hbefore j hj)⟩

/-- An entry may be replaced by another one with its hash. -/
theorem Chained.replace (ht : Chained t hash) {b : α} (he : t.getD e none = some b)
    (hab : hash a = hash b) :
    Chained (t.set e (some a)) hash := by
  intro s hs c hc
  rw [length_set] at hs ⊢
  have hold : ∃ c', t.getD s none = some c' ∧ hash c = hash c' := by
    by_cases hse : e = s
    · subst hse
      rw [getD_eq_getElem _ _ (by rwa [length_set]), getElem_set_self] at hc
      exact ⟨b, he, Option.some.inj hc ▸ hab⟩
    · rw [getD_eq_getElem?_getD, getElem?_set_ne hse, ← getD_eq_getElem?_getD] at hc
      exact ⟨c, hc, rfl⟩
  obtain ⟨c', hc', hhash⟩ := hold
  obtain ⟨i, hi, hslot, hbefore⟩ := ht s hs c' hc'
  rw [hhash]
  exact ⟨i, hi, hslot, fun j hj => slotAt_set_ne_none (hbefore j hj)⟩

/-- The invariant only looks at the hashes of stored entries. -/
theorem Chained.congr {hash' : α → ℕ} (ht : Chained t hash)
    (h : ∀ a, some a ∈ t → hash' a = hash a) : Chained t hash' := by
  intro s hs a ha
  rw [getD_eq_getElem _ _ hs] at ha
  rw [h a (ha ▸ getElem_mem hs)]
  exact ht s hs a (by rw [getD_eq_getElem _ _ hs, ha])

/-- Filling an empty slot adds one entry. -/
theorem countP_set_of_empty (he : e < t.length) (hempty : t.getD e none = none) (a : α) :
    (t.set e (some a)).countP Option.isSome = t.countP Option.isSome + 1 := by
  rw [getD_eq_getElem _ _ he] at hempty
  rw [countP_set he, hempty]
  simp

end Probe
