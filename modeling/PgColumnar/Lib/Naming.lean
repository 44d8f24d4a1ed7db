import Mathlib.Data.List.Basic

/-!
# Positions and their names

A list of places, each with a name or with none once it has been given up.  Places are added
at the end, renamed, and dropped; a name that is free again may go to another place.

## Main definitions

* `lookup`, `rename`, `drop` — positions with names.

## Main results

* `lookup_rename_new`, `lookup_rename_old` — what the names mean after a rename.
-/

namespace Naming

open List

variable {ν : Type*} [DecidableEq ν] {env : List (Option ν)} {n old new : ν} {i : ℕ}

/-- The place that a name means. -/
def lookup (env : List (Option ν)) (n : ν) : Option ℕ := env.findIdx? fun x => decide (x = some n)

/-- No two places have one name. -/
def Distinct (env : List (Option ν)) : Prop :=
  ∀ (i j : ℕ) (n : ν), env[i]? = some (some n) → env[j]? = some (some n) → i = j

def rename (old new : ν) (env : List (Option ν)) : List (Option ν) :=
  env.map fun x => if x = some old then some new else x

def drop (n : ν) (env : List (Option ν)) : List (Option ν) :=
  env.map fun x => if x = some n then none else x

theorem getElem?_of_lookup (h : lookup env n = some i) : env[i]? = some (some n) := by
  obtain ⟨hi, hn, -⟩ := findIdx?_eq_some_iff_getElem.mp h
  rw [getElem?_eq_getElem hi]
  simpa using hn

theorem lookup_eq_some (hd : Distinct env) : lookup env n = some i ↔ env[i]? = some (some n) := by
  refine ⟨getElem?_of_lookup, fun h => ?_⟩
  cases hl : lookup env n with
  | none =>
    have hnone := findIdx?_eq_none_iff.mp hl (some n) (mem_of_getElem? h)
    simp at hnone
  | some j => rw [hd j i n (getElem?_of_lookup hl) h]

theorem lookup_eq_none : lookup env n = none ↔ some n ∉ env := by
  unfold lookup
  rw [findIdx?_eq_none_iff]
  constructor
  · intro h hn
    simpa using h _ hn
  · intro h x hx
    simp only [decide_eq_false_iff_not]
    intro heq
    exact h (heq ▸ hx)

theorem lookup_lt (h : lookup env n = some i) : i < env.length :=
  (List.getElem?_eq_some_iff.mp (getElem?_of_lookup h)).1

@[simp] theorem length_rename : (rename old new env).length = env.length := length_map _

@[simp] theorem length_drop : (drop n env).length = env.length := length_map _

variable {m : ν}

/-- What has a name after a rename. -/
theorem getElem?_rename : (rename old new env)[i]? = some (some m) ↔
    env[i]? = some (some m) ∧ m ≠ old ∨ env[i]? = some (some old) ∧ m = new := by
  unfold rename
  rw [getElem?_map]
  cases hx : env[i]? with
  | none => simp
  | some x =>
    by_cases heq : x = some old
    · simp [heq, eq_comm]
    · simp only [Option.map_some, heq, if_false, Option.some.injEq]
      constructor
      · intro hm
        refine .inl ⟨hm, ?_⟩
        rintro rfl
        exact heq hm
      · intro hm
        rcases hm with ⟨hm, -⟩ | ⟨hm, -⟩
        · exact hm
        · exact hm.elim

theorem getElem?_drop : (drop n env)[i]? = some (some m) ↔ env[i]? = some (some m) ∧ m ≠ n := by
  unfold drop
  rw [getElem?_map]
  cases hx : env[i]? with
  | none => simp
  | some x =>
    by_cases heq : x = some n
    · simp [heq, eq_comm]
    · simp only [Option.map_some, heq, if_false, Option.some.injEq]
      refine ⟨fun hm => ⟨hm, ?_⟩, And.left⟩
      rintro rfl
      exact heq hm

theorem Distinct.rename (hd : Distinct env) (hnew : lookup env new = none) :
    Distinct (rename old new env) := by
  have hfree : ∀ i : ℕ, env[i]? ≠ some (some new) := fun i hi =>
    lookup_eq_none.mp hnew (mem_of_getElem? hi)
  intro i j m hi hj
  rcases getElem?_rename.mp hi with ⟨hi', -⟩ | ⟨hi', hm⟩
  · rcases getElem?_rename.mp hj with ⟨hj', -⟩ | ⟨-, hm⟩
    · exact hd i j m hi' hj'
    · exact absurd (hm ▸ hi') (hfree i)
  · rcases getElem?_rename.mp hj with ⟨hj', -⟩ | ⟨hj', -⟩
    · exact absurd (hm ▸ hj') (hfree j)
    · exact hd i j old hi' hj'

theorem Distinct.drop (hd : Distinct env) (n : ν) : Distinct (drop n env) := by
  intro i j m hi hj
  exact hd i j m (getElem?_drop.mp hi).1 (getElem?_drop.mp hj).1

omit [DecidableEq ν] in
theorem getElem?_append_singleton : (env ++ [some n])[i]? = some (some m) ↔
    env[i]? = some (some m) ∨ i = env.length ∧ n = m := by
  rcases Nat.lt_trichotomy i env.length with hlt | rfl | hgt
  · rw [getElem?_append_left hlt]
    simp [Nat.ne_of_lt hlt]
  · simp
  · rw [getElem?_eq_none (by simp; omega), getElem?_eq_none (Nat.le_of_lt hgt)]
    simp [Nat.ne_of_gt hgt]

theorem Distinct.append (hd : Distinct env) (hn : lookup env n = none) :
    Distinct (env ++ [some n]) := by
  have hfree : ∀ i : ℕ, env[i]? ≠ some (some n) := fun i hi =>
    lookup_eq_none.mp hn (mem_of_getElem? hi)
  intro i j m hi hj
  rcases getElem?_append_singleton.mp hi with hi | ⟨rfl, rfl⟩
  · rcases getElem?_append_singleton.mp hj with hj | ⟨-, rfl⟩
    · exact hd i j m hi hj
    · exact absurd hi (hfree i)
  · rcases getElem?_append_singleton.mp hj with hj | ⟨rfl, -⟩
    · exact absurd hj (hfree j)
    · rfl

/-- A renamed place is found under its new name. -/
theorem lookup_rename_new (hd : Distinct env) (hnew : lookup env new = none) :
    lookup (rename old new env) new = lookup env old := by
  ext i
  rw [lookup_eq_some (hd.rename hnew), lookup_eq_some hd, getElem?_rename]
  constructor
  · rintro (⟨hi, -⟩ | ⟨hi, -⟩)
    · exact absurd (mem_of_getElem? hi) (lookup_eq_none.mp hnew)
    · exact hi
  · exact fun hi => .inr ⟨hi, rfl⟩

/-- The old name means nothing. -/
theorem lookup_rename_old (hne : old ≠ new) : lookup (rename old new env) old = none := by
  rw [lookup_eq_none]
  intro hmem
  obtain ⟨i, hi⟩ := mem_iff_getElem?.mp hmem
  rcases getElem?_rename.mp hi with ⟨-, hold⟩ | ⟨-, hold⟩
  · exact hold rfl
  · exact hne hold

theorem lookup_rename_of_ne (hd : Distinct env) (hnew : lookup env new = none)
    (hold : m ≠ old) (hm : m ≠ new) : lookup (rename old new env) m = lookup env m := by
  ext i
  rw [lookup_eq_some (hd.rename hnew), lookup_eq_some hd, getElem?_rename]
  simp [hold, hm]

theorem lookup_drop (hd : Distinct env) :
    lookup (drop n env) m = if m = n then none else lookup env m := by
  ext i
  rw [lookup_eq_some (hd.drop n), getElem?_drop]
  by_cases heq : m = n
  · simp [heq]
  · rw [if_neg heq, lookup_eq_some hd]
    simp [heq]

theorem lookup_append (hd : Distinct env) (hn : lookup env n = none) :
    lookup (env ++ [some n]) m = if m = n then some env.length else lookup env m := by
  ext i
  rw [lookup_eq_some (hd.append hn), getElem?_append_singleton]
  by_cases heq : m = n
  · subst heq
    rw [if_pos rfl]
    constructor
    · rintro (hi | ⟨rfl, -⟩)
      · exact absurd (mem_of_getElem? hi) (lookup_eq_none.mp hn)
      · rfl
    · intro hi
      exact .inr ⟨by simpa [eq_comm] using hi, rfl⟩
  · rw [if_neg heq, lookup_eq_some hd]
    simp [Ne.symm heq]

end Naming
