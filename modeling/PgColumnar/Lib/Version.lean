import Mathlib.Data.List.Basic

/-!
# Row versions

A table is a list of row versions.  A version is stamped with the transaction and command
that wrote it, and with those that deleted it.  An observer is a test on stamps; it reads
the versions whose writer it sees and whose deleter it does not.

## Main definitions

* `read` — what an observer reads of the versions of a table.
* `Edits` — changes under some stamps.
-/

namespace Mvcc

open List

structure Version (α : Type*) where
  val : α
  xmin : ℕ
  cmin : ℕ
  xmax : Option (ℕ × ℕ)

namespace Version

variable {α : Type*} {seen seen' : ℕ → ℕ → Bool} {tab : List (Version α)} {v : Version α}

def visible (seen : ℕ → ℕ → Bool) (v : Version α) : Bool :=
  seen v.xmin v.cmin && !v.xmax.any fun d => seen d.1 d.2

/-- What the observer reads, in the order of the table. -/
def read (seen : ℕ → ℕ → Bool) (tab : List (Version α)) : List α :=
  (tab.filter (visible seen)).map (·.val)

/-- The stamps of a version. -/
def Stamped (v : Version α) (x c : ℕ) : Prop := v.xmin = x ∧ v.cmin = c ∨ v.xmax = some (x, c)

theorem visible_congr (h : ∀ x c, v.Stamped x c → seen x c = seen' x c) :
    v.visible seen = v.visible seen' := by
  unfold visible
  rw [h v.xmin v.cmin (.inl ⟨rfl, rfl⟩)]
  cases hx : v.xmax with
  | none => rfl
  | some d => simp only [Option.any_some, h d.1 d.2 (.inr hx)]

theorem read_congr (h : ∀ v ∈ tab, ∀ x c, v.Stamped x c → seen x c = seen' x c) :
    read seen tab = read seen' tab := by
  unfold read
  rw [filter_congr fun v hv => visible_congr (h v hv)]

theorem not_visible_of_xmin (h : seen v.xmin v.cmin = false) : v.visible seen = false := by
  simp [visible, h]

theorem not_visible_of_xmax {d : ℕ × ℕ} (hx : v.xmax = some d) (h : seen d.1 d.2 = true) :
    v.visible seen = false := by
  simp [visible, hx, h]

/-- A version of an unseen writer. -/
theorem read_insert {a : α} {x c : ℕ} (h : seen x c = false) :
    read seen (tab ++ [⟨a, x, c, none⟩]) = read seen tab := by
  have hv : visible seen (⟨a, x, c, none⟩ : Version α) = false := not_visible_of_xmin h
  simp [read, hv]

/-- A version deleted by an unseen transaction, in place of one that was not deleted for the
observer either. -/
theorem read_delete {i x c : ℕ} (hv : tab[i]? = some v) (h : seen x c = false)
    (hold : ∀ d ∈ v.xmax, seen d.1 d.2 = false) :
    read seen (tab.set i { v with xmax := some (x, c) }) = read seen tab := by
  have heq : visible seen { v with xmax := some (x, c) } = visible seen v := by
    unfold visible
    cases hx : v.xmax with
    | none => simp [h]
    | some d => simp [h, hold d hx]
  induction tab generalizing i with
  | nil => cases hv
  | cons w tab ih =>
    cases i with
    | zero =>
      cases hv
      unfold read
      rw [set_cons_zero, filter_cons, filter_cons, heq]
      split <;> rfl
    | succ i =>
      have hrec := ih hv
      unfold read at hrec ⊢
      rw [set_cons_succ, filter_cons, filter_cons]
      split
      · rw [map_cons, map_cons, hrec]
      · exact hrec

/-- A version the observer does not read is removed. -/
theorem read_eraseIdx {i : ℕ} (hv : tab[i]? = some v) (h : v.visible seen = false) :
    read seen (tab.eraseIdx i) = read seen tab := by
  induction tab generalizing i with
  | nil => cases hv
  | cons w tab ih =>
    cases i with
    | zero =>
      cases hv
      simp [read, h]
    | succ i =>
      have hrec := ih hv
      unfold read at hrec ⊢
      rw [eraseIdx_cons_succ, filter_cons, filter_cons]
      split
      · rw [map_cons, map_cons, hrec]
      · exact hrec

/-- The table is changed: versions are added and deleted under stamps in `P`, the latter
only where an earlier delete is void by `A`, and versions in `D` are removed. -/
inductive Edits (P : ℕ → ℕ → Prop) (A : ℕ → Prop) (D : Version α → Prop) :
    List (Version α) → List (Version α) → Prop
  | refl (tab : List (Version α)) : Edits P A D tab tab
  | insert {tab : List (Version α)} {a : α} {x c : ℕ} (h : P x c) :
      Edits P A D tab (tab ++ [⟨a, x, c, none⟩])
  | delete {tab : List (Version α)} {v : Version α} {i x c : ℕ} (hv : tab[i]? = some v)
      (h : P x c) (hold : ∀ d ∈ v.xmax, A d.1) :
      Edits P A D tab (tab.set i { v with xmax := some (x, c) })
  | prune {tab : List (Version α)} {v : Version α} {i : ℕ} (hv : tab[i]? = some v) (h : D v) :
      Edits P A D tab (tab.eraseIdx i)
  | trans {tab₁ tab₂ tab₃ : List (Version α)} (h₁ : Edits P A D tab₁ tab₂)
      (h₂ : Edits P A D tab₂ tab₃) : Edits P A D tab₁ tab₃

theorem Edits.mono {P P' : ℕ → ℕ → Prop} {A : ℕ → Prop} {D : Version α → Prop}
    {tab' : List (Version α)} (hP : ∀ x c, P x c → P' x c) (h : Edits P A D tab tab') :
    Edits P' A D tab tab' := by
  induction h with
  | refl tab => exact .refl tab
  | insert h => exact .insert (hP _ _ h)
  | delete hv h hold => exact .delete hv (hP _ _ h) hold
  | prune hv h => exact .prune hv h
  | trans _ _ ih₁ ih₂ => exact .trans ih₁ ih₂

theorem Edits.read {P : ℕ → ℕ → Prop} {A : ℕ → Prop} {D : Version α → Prop}
    {tab' : List (Version α)} (h : Edits P A D tab tab') (hP : ∀ x c, P x c → seen x c = false)
    (hA : ∀ x c, A x → seen x c = false) (hD : ∀ v, D v → visible seen v = false) :
    read seen tab' = read seen tab := by
  induction h with
  | refl => rfl
  | insert h => exact read_insert (hP _ _ h)
  | delete hv h hold => exact read_delete hv (hP _ _ h) fun d hd => hA _ _ (hold d hd)
  | prune hv h => exact read_eraseIdx hv (hD _ h)
  | trans _ _ ih₁ ih₂ => exact ih₂.trans ih₁

/-- The stamps of the table after the change are new or old. -/
theorem Edits.stamped {P : ℕ → ℕ → Prop} {A : ℕ → Prop} {D : Version α → Prop}
    {tab' : List (Version α)} (h : Edits P A D tab tab') {x c : ℕ}
    (hv : ∃ v ∈ tab', v.Stamped x c) : P x c ∨ ∃ v ∈ tab, v.Stamped x c := by
  induction h with
  | refl => exact .inr hv
  | insert h =>
    obtain ⟨v, hv, hs⟩ := hv
    rcases mem_append.mp hv with hv | hv
    · exact .inr ⟨v, hv, hs⟩
    · rw [mem_singleton.mp hv] at hs
      rcases hs with ⟨rfl, rfl⟩ | hs
      · exact .inl h
      · cases hs
  | delete hw h _ =>
    obtain ⟨v, hv, hs⟩ := hv
    rcases mem_or_eq_of_mem_set hv with hv | rfl
    · exact .inr ⟨v, hv, hs⟩
    · rcases hs with hs | hs
      · exact .inr ⟨_, mem_of_getElem? hw, .inl hs⟩
      · cases hs
        exact .inl h
  | prune _ _ =>
    obtain ⟨v, hv, hs⟩ := hv
    exact .inr ⟨v, mem_of_mem_eraseIdx hv, hs⟩
  | trans _ _ ih₁ ih₂ =>
    rcases ih₂ hv with h | h
    · exact .inl h
    · exact ih₁ h

end Version

end Mvcc
