import Mathlib.Data.List.Basic

/-!
# Definition and repetition levels

A value of a nested schema is stored by its leaves: for each leaf a sequence of entries, each
with a definition level, which says how much of the path to the leaf is there, and a
repetition level, which says where on the path the entry repeats.

## Main definitions

* `Path`, `Value`, `shred` — paths, values along them, and their entries.

## Main results

* `shred_list` — the entries on a path that repeats once.
-/

namespace Dremel

open Nat

/-- How often an element of a path is there. -/
inductive Repetition where
  | required
  | optional
  | repeated
  deriving DecidableEq, Repr

/-- The elements from the root to a leaf. -/
abbrev Path := List Repetition

/-- The values of a path, if those of its end are of type `α`. -/
def Value (α : Type) : Path → Type
  | [] => α
  | .required :: p => Value α p
  | .optional :: p => Option (Value α p)
  | .repeated :: p => List (Value α p)

/-- The greatest definition level of a path. -/
def maxDef : Path → ℕ
  | [] => 0
  | .required :: p => maxDef p
  | .optional :: p => maxDef p + 1
  | .repeated :: p => maxDef p + 1

/-- The greatest repetition level of a path. -/
def maxRep : Path → ℕ
  | [] => 0
  | .required :: p => maxRep p
  | .optional :: p => maxRep p
  | .repeated :: p => maxRep p + 1

@[simp]
theorem maxDef_append (p q : Path) : maxDef (p ++ q) = maxDef p + maxDef q := by
  induction p with
  | nil => simp [maxDef]
  | cons e p ih =>
    cases e <;> simp only [List.cons_append, maxDef, ih]
    all_goals omega

@[simp]
theorem maxRep_append (p q : Path) : maxRep (p ++ q) = maxRep p + maxRep q := by
  induction p with
  | nil => simp [maxRep]
  | cons e p ih =>
    cases e <;> simp only [List.cons_append, maxRep, ih]
    omega

structure Entry (β : Type) where
  rep : ℕ
  defn : ℕ
  value : Option β

variable {α β : Type}

/-- The entries of a value, given those of the end of its path.  The levels are how often the
path has repeated so far, the repetition level of the first entry, and how much is defined. -/
def shredWith (k : α → ℕ → ℕ → ℕ → List (Entry β)) : (p : Path) → Value α p → ℕ → ℕ → ℕ →
    List (Entry β)
  | [], v, l, r, d => k v l r d
  | .required :: p, v, l, r, d => shredWith k p v l r d
  | .optional :: p, v, l, r, d =>
    match (v : Option (Value α p)) with
    | none => [⟨r, d, none⟩]
    | some v => shredWith k p v l r (d + 1)
  | .repeated :: p, v, l, r, d =>
    match (v : List (Value α p)) with
    | [] => [⟨r, d, none⟩]
    | x :: xs => shredWith k p x (l + 1) r (d + 1) ++
        xs.flatMap fun y => shredWith k p y (l + 1) (l + 1) (d + 1)

/-- The entries of a value. -/
def shredFrom (p : Path) (v : Value β p) (l r d : ℕ) : List (Entry β) :=
  shredWith (fun v _ r d => [⟨r, d, some v⟩]) p v l r d

/-- The entries of one record. -/
def shred (p : Path) (v : Value β p) : List (Entry β) := shredFrom p v 0 0 0

/-- The value at the end of a path that does not repeat, if it is there. -/
def scalarOf : (p : Path) → Value α p → Option α
  | [], v => some v
  | .required :: p, v => scalarOf p v
  | .optional :: p, v => (v : Option (Value α p)).bind (scalarOf p)
  | .repeated :: _, _ => none

/-- The elements of a list on a path that repeats once, each if it is there. -/
def listOf : (p : Path) → Value α p → Option (List (Option α))
  | [], _ => none
  | .required :: p, v => listOf p v
  | .optional :: p, v => (v : Option (Value α p)).bind (listOf p)
  | .repeated :: p, v => some ((v : List (Value α p)).map (scalarOf p))

/-- How much is defined above the first element that repeats. -/
def listDef : Path → ℕ
  | [] => 0
  | .required :: p => listDef p
  | .optional :: p => listDef p + 1
  | .repeated :: _ => 0

variable {p : Path}

theorem listDef_lt_maxDef (hp : maxRep p ≠ 0) : listDef p < maxDef p := by
  induction p with
  | nil => simp [maxRep] at hp
  | cons e p ih =>
    cases e with
    | required => exact ih hp
    | optional => exact Nat.succ_lt_succ (ih hp)
    | repeated => exact succ_pos _

/-- **A value on a path that does not repeat has the entries of its end**, or one entry
that says where the path ends early. -/
theorem shredWith_scalar (k : α → ℕ → ℕ → ℕ → List (Entry β)) (hp : maxRep p = 0)
    (v : Value α p) (l r d : ℕ) :
    match scalarOf p v with
    | some x => shredWith k p v l r d = k x l r (d + maxDef p)
    | none => ∃ i < maxDef p, shredWith k p v l r d = [⟨r, d + i, none⟩] := by
  induction p generalizing d with
  | nil => rfl
  | cons e p ih =>
    cases e with
    | required => exact ih hp v d
    | optional =>
      cases (v : Option (Value α p)) with
      | none => exact ⟨0, succ_pos _, rfl⟩
      | some v =>
        have hrest := ih hp v (d + 1)
        show match scalarOf p v with
          | some x => shredWith k p v l r (d + 1) = k x l r (d + (maxDef p + 1))
          | none => ∃ i < maxDef p + 1, shredWith k p v l r (d + 1) = [⟨r, d + i, none⟩]
        cases hv : scalarOf p v with
        | some x =>
          rw [hv] at hrest
          rw [hrest, Nat.add_right_comm, Nat.add_assoc]
        | none =>
          rw [hv] at hrest
          obtain ⟨i, hi, heq⟩ := hrest
          exact ⟨i + 1, Nat.succ_lt_succ hi, by rw [heq, Nat.add_assoc, Nat.add_comm 1 i]⟩
    | repeated => simp [maxRep] at hp

/-- An entry of an element: its level is the greatest exactly if its value is there. -/
structure OfElement (low high : ℕ) (x : Option β) (e : Entry β) : Prop where
  value : e.value = x
  low : low ≤ e.defn
  high : e.defn = high ↔ x.isSome

/-- An element on a path that does not repeat has one entry. -/
theorem shredFrom_scalar (hp : maxRep p = 0) (v : Value β p) (l r d : ℕ) :
    ∃ e : Entry β, shredFrom p v l r d = [e] ∧ e.rep = r ∧
      OfElement d (d + maxDef p) (scalarOf p v) e := by
  have h := shredWith_scalar (fun v _ r d => [⟨r, d, some v⟩]) hp v l r d
  cases hv : scalarOf p v with
  | some x =>
    rw [hv] at h
    exact ⟨_, h, rfl, rfl, le_add_right _ _, by simp⟩
  | none =>
    rw [hv] at h
    obtain ⟨i, hi, heq⟩ := h
    exact ⟨_, heq, rfl, rfl, le_add_right _ _, by simp; omega⟩

/-- The entries of the elements of a list: the first has the repetition level of the list,
the others repeat. -/
def OfList (low high r : ℕ) (xs : List (Option β)) (es : List (Entry β)) : Prop :=
  List.Forall₂ (OfElement low high) xs es ∧ (∀ e ∈ es.head?, e.rep = r) ∧ ∀ e ∈ es.tail, e.rep ≠ 0

/-- **The entries of a value on a path that repeats once**: of its elements, or one entry
that says that there is no element or where the path ends early. -/
theorem shred_list (hp : maxRep p = 1) (v : Value β p) (r d : ℕ) :
    match listOf p v with
    | none => ∃ i < listDef p, shredFrom p v 0 r d = [⟨r, d + i, none⟩]
    | some [] => shredFrom p v 0 r d = [⟨r, d + listDef p, none⟩]
    | some xs => OfList (d + listDef p + 1) (d + maxDef p) r xs (shredFrom p v 0 r d) := by
  induction p generalizing d with
  | nil => simp [maxRep] at hp
  | cons e p ih =>
    -- an optional element adds a level, the repeated one begins the list
    cases e with
    | required => exact ih hp v d
    | optional =>
      cases (v : Option (Value β p)) with
      | none => exact ⟨0, succ_pos _, rfl⟩
      | some v =>
        have hrest := ih hp v (d + 1)
        show match listOf p v with
          | none => ∃ i < listDef p + 1, shredFrom p v 0 r (d + 1) = [⟨r, d + i, none⟩]
          | some [] => shredFrom p v 0 r (d + 1) = [⟨r, d + (listDef p + 1), none⟩]
          | some xs => OfList (d + (listDef p + 1) + 1) (d + (maxDef p + 1)) r xs
              (shredFrom p v 0 r (d + 1))
        have hlist : d + (listDef p + 1) = d + 1 + listDef p := by omega
        have hdef : d + (maxDef p + 1) = d + 1 + maxDef p := by omega
        rw [hlist, hdef]
        cases hv : listOf p v with
        | none =>
          rw [hv] at hrest
          obtain ⟨i, hi, heq⟩ := hrest
          exact ⟨i + 1, Nat.succ_lt_succ hi, by rw [heq, Nat.add_assoc, Nat.add_comm 1 i]⟩
        | some xs =>
          rw [hv] at hrest
          cases xs <;> exact hrest
    | repeated =>
      have hp0 : maxRep p = 0 := by simpa [maxRep] using hp
      have helem := fun (y : Value β p) r' => shredFrom_scalar hp0 y 1 r' (d + 1)
      have hdef : d + maxDef (.repeated :: p) = d + 1 + maxDef p := by
        simp only [maxDef]
        omega
      cases (v : List (Value β p)) with
      | nil => rfl
      | cons x xs =>
        show OfList (d + 0 + 1) (d + maxDef (.repeated :: p)) r ((x :: xs).map (scalarOf p))
          (shredFrom p x 1 r (d + 1) ++ xs.flatMap fun y => shredFrom p y 1 1 (d + 1))
        obtain ⟨e, he, hrep, hof⟩ := helem x r
        have htail : ∀ ys : List (Value β p), List.Forall₂ (OfElement (d + 1) (d + 1 + maxDef p))
            (ys.map (scalarOf p)) (ys.flatMap fun y => shredFrom p y 1 1 (d + 1)) ∧
            ∀ e ∈ ys.flatMap fun y => shredFrom p y 1 1 (d + 1), e.rep ≠ 0 := by
          intro ys
          induction ys with
          | nil => exact ⟨List.Forall₂.nil, by simp⟩
          | cons y ys ihy =>
            obtain ⟨e', he', hrep', hof'⟩ := helem y 1
            rw [List.flatMap_cons, he', List.map_cons]
            refine ⟨List.Forall₂.cons hof' ihy.1, ?_⟩
            refine List.forall_mem_cons.mpr ⟨?_, ihy.2⟩
            omega
        rw [he, hdef]
        refine ⟨List.Forall₂.cons hof (htail xs).1, ?_, ?_⟩
        · simp [hrep]
        · simpa using (htail xs).2

end Dremel
