import PgColumnar.Lib.Probe
import Mathlib.Data.List.Perm.Basic

/-!
# Tables that grow

The entries of an open-addressing table, whatever slots they are in.  A walk for an entry
either finds one that passes its test, or proves that there is none and ends where the entry
can be stored.

## Main definitions

* `Open` — a table in which a walk finds what is stored, and stops.

## Main results

* `Chained.find` — what the walk for an entry proves.
-/

namespace Probe

open Nat

variable {α : Type} {hash : α → ℕ} {t : List (Option α)} {a : α}

/-- The entries of a table, in the order of their slots. -/
def entries (t : List (Option α)) : List α := t.filterMap id

@[simp]
theorem mem_entries : a ∈ entries t ↔ some a ∈ t := by
  simp [entries]

@[simp]
theorem entries_replicate (m : ℕ) : entries (List.replicate m (none : Option α)) = [] := by
  induction m with
  | zero => rfl
  | succ m ih => exact ih

theorem length_entries (t : List (Option α)) : (entries t).length = t.countP Option.isSome := by
  induction t with
  | nil => rfl
  | cons o t ih =>
    cases o with
    | none | some a => simpa [entries] using ih

/-- Storing into an empty slot adds an entry. -/
theorem entries_set {e : ℕ} (he : e < t.length) (hempty : t.getD e none = none) :
    (entries (t.set e (some a))).Perm (a :: entries t) := by
  induction t generalizing e with
  | nil => exact absurd he (not_lt_zero e)
  | cons o t ih =>
    cases e with
    | zero =>
      obtain rfl : o = none := by simpa using hempty
      simp [entries]
    | succ e =>
      have hrest := ih (lt_of_succ_lt_succ he) (by simpa using hempty)
      cases o with
      | none => simpa [entries] using hrest
      | some b =>
        -- the new entry moves in front of the one in the first slot
        apply (hrest.cons b).trans
        exact List.Perm.swap a b (entries t)

/-- Replacing an entry leaves the others. -/
theorem entries_replace {e : ℕ} {b : α} (h : t.getD e none = some b) (a : α) :
    ∃ rest, (entries t).Perm (b :: rest) ∧ (entries (t.set e (some a))).Perm (a :: rest) := by
  induction t generalizing e with
  | nil => cases h
  | cons o t ih =>
    cases e with
    | zero =>
      obtain rfl : o = some b := by simpa using h
      exact ⟨entries t, List.Perm.refl _, List.Perm.refl _⟩
    | succ e =>
      obtain ⟨rest, hrest, hrest'⟩ := ih (e := e) (by simpa using h)
      cases o with
      | none => exact ⟨rest, hrest, hrest'⟩
      | some c =>
        -- the entry of the first slot stays in front of the others
        refine ⟨c :: rest, ?_, ?_⟩
        · exact (hrest.cons c).trans (List.Perm.swap b c rest)
        · exact (hrest'.cons c).trans (List.Perm.swap a c rest)

/-- **What the walk for an entry proves**, if entries that pass its test have its hash: only in
a table without an empty slot it may not end. -/
theorem Chained.find (h : Chained t fun a => hash a % t.length) (hpos : 0 < t.length) (a : α)
    (p : α → Bool) (hp : ∀ b ∈ entries t, p b = true → hash b = hash a) :
    (∃ e, ∃ b ∈ entries t, p b = true ∧ t.getD e none = some b ∧
      probe t p t.length (hash a % t.length) = .hit e b) ∨
    (∃ e, probe t p t.length (hash a % t.length) = .empty e ∧ (∀ b ∈ entries t, p b = false) ∧
      Chained (t.set e (some a)) (fun b => hash b % t.length) ∧
      (entries (t.set e (some a))).Perm (a :: entries t)) ∨
    (probe t p t.length (hash a % t.length) = .exhausted ∧
      (∀ b ∈ entries t, p b = false) ∧ (entries t).length = t.length) := by
  have hslot : hash a % t.length < t.length := mod_lt _ hpos
  have hmissed : (¬ ∃ e b, probe t p t.length (hash a % t.length) = .hit e b) →
      ∀ b ∈ entries t, p b = false := by
    intro hnone b hb
    by_contra hpb
    simp only [Bool.not_eq_false] at hpb
    obtain ⟨e', b', hhit⟩ :=
      exists_probe_hit h (mem_entries.mp hb) (mod_lt _ hpos) hpb
    rw [hp b hb hpb] at hhit
    exact hnone ⟨e', b', hhit⟩
  cases hprobe : probe t p t.length (hash a % t.length) with
  | hit e b =>
    obtain ⟨hb, hmem⟩ := probe_hit hslot hprobe
    exact .inl ⟨e, b, mem_entries.mpr hmem, hb, probe_hit_slot hslot hprobe, rfl⟩
  | empty e =>
    obtain ⟨he, hempty⟩ := probe_empty hslot hprobe
    exact .inr (.inl ⟨e, rfl, hmissed (by simp [hprobe]), h.set hslot hprobe,
      entries_set he hempty⟩)
  | exhausted =>
    refine .inr (.inr ⟨rfl, hmissed (by simp [hprobe]), ?_⟩)
    rw [length_entries]
    by_contra hne
    have hlt : t.countP Option.isSome < t.length :=
      lt_of_le_of_ne (List.countP_le_length) hne
    obtain ⟨e, he, hempty⟩ := exists_empty hlt
    exact probe_ne_exhausted hslot he hempty hprobe

/-- A table in which a walk finds what is stored and stops at an empty slot. -/
structure Open (hash : α → ℕ) (t : List (Option α)) : Prop where
  chained : Chained t fun a => hash a % t.length
  room : (entries t).length < t.length

theorem Open.length_pos (h : Open hash t) : 0 < t.length := zero_lt_of_lt h.room

theorem open_replicate {m : ℕ} (hm : 0 < m) (hash : α → ℕ) :
    Open hash (List.replicate m (none : Option α)) where
  chained := chained_replicate_none m _
  room := by simpa using hm

/-- The walk ends in a table that is open. -/
theorem Open.find (h : Open hash t) (a : α) (p : α → Bool)
    (hp : ∀ b ∈ entries t, p b = true → hash b = hash a) :
    (∃ e, ∃ b ∈ entries t, p b = true ∧ probe t p t.length (hash a % t.length) = .hit e b) ∨
    (∃ e, probe t p t.length (hash a % t.length) = .empty e ∧ (∀ b ∈ entries t, p b = false) ∧
      Chained (t.set e (some a)) (fun b => hash b % t.length) ∧
      (entries (t.set e (some a))).Perm (a :: entries t)) := by
  rcases h.chained.find h.length_pos a p hp with ⟨e, b, hb, hpb, -, hprobe⟩ | hempty | ⟨-, -, hfull⟩
  · exact .inl ⟨e, b, hb, hpb, hprobe⟩
  · exact .inr hempty
  · exact absurd hfull (Nat.ne_of_lt h.room)

/-- The table after its entry is stored, if there is still room. -/
theorem Open.set {e : ℕ} (hchained : Chained (t.set e (some a)) fun b => hash b % t.length)
    (hperm : (entries (t.set e (some a))).Perm (a :: entries t))
    (hroom : (entries t).length + 1 < t.length) : Open hash (t.set e (some a)) where
  chained := by rwa [List.length_set]
  room := by
    rw [hperm.length_eq, List.length_set]
    exact hroom

end Probe
