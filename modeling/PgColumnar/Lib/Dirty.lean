import Mathlib.Data.List.Basic
import Mathlib.Data.List.Perm.Basic

/-!
# Dirty reads

A version of a row is stamped with the transaction that wrote it and with the one that deleted
it.  A reader sees the versions whose writer has committed, or is its own, and whose deleter has
not.  A dirty read also returns what other transactions are writing or deleting, and leaves the
name of such a transaction behind.  A read of many versions leaves the names of the last one only.

Ids are of any type; `mine` tells the reader's own ones, those that are rolled back apart.

## Main definitions

* `dirty`, `scan` — what a dirty read returns, and whom it names.

## Main results

* `fate_of_dirty` — the writer of what is returned was not rolled back.
-/

namespace Dirty

inductive Fate where
  | running
  | committed
  | aborted
  deriving DecidableEq

structure Version (ξ α : Type) where
  val : α
  xmin : ξ
  xmax : Option ξ
  deriving DecidableEq

/-- The transactions that a dirty read names: one that is writing the version, or one that is
deleting it. -/
structure Names (ξ : Type) where
  xmin : Option ξ
  xmax : Option ξ
  deriving DecidableEq

variable {ξ α : Type}

/-- Nobody is named. -/
def Names.none : Names ξ := ⟨.none, .none⟩

def Names.isNone (n : Names ξ) : Bool := n.xmin.isNone && n.xmax.isNone

variable (mine : ξ → Bool) (fate : ξ → Fate)

/-- The transaction has committed, or is the reader's. -/
def sees (x : ξ) : Bool := mine x || decide (fate x = .committed)

namespace Version

def seen (v : Version ξ α) : Bool := sees mine fate v.xmin && !v.xmax.any (sees mine fate)

/-- No reader will see the version again. -/
def dead (v : Version ξ α) : Bool :=
  decide (fate v.xmin = .aborted) || v.xmax.any fun x => decide (fate x = .committed)

end Version

/-- `HeapTupleSatisfiesDirty` -/
def dirty (v : Version ξ α) : Bool × Names ξ :=
  if mine v.xmin then
    (!v.xmax.any mine, .none)
  else
    match fate v.xmin with
    | .running => (true, ⟨some v.xmin, none⟩)
    | .aborted => (false, .none)
    | .committed =>
      match v.xmax with
      | none => (true, .none)
      | some x =>
        if mine x then (false, .none)
        else
          match fate x with
          | .running => (true, ⟨none, some x⟩)
          | .committed => (false, .none)
          | .aborted => (true, .none)

/-- A version is put at some place of the order in which a scan examines them. -/
def insertAt {β : Type} (pos : ℕ) (a : β) (l : List β) : List β := l.take pos ++ a :: l.drop pos

/-- What a scan returns, and the names it leaves where others stood before. -/
def scan (tab : List (Version ξ α)) (names : Names ξ) : List (Version ξ α) × Names ξ :=
  (tab.filter fun v => (dirty mine fate v).1,
    (tab.getLast?.map fun v => (dirty mine fate v).2).getD names)

variable {mine fate} {v : Version ξ α} {tab : List (Version ξ α)} {names : Names ξ}

@[simp] theorem Names.isNone_none : (Names.none : Names ξ).isNone = true := rfl

theorem insertAt_perm {β : Type} (pos : ℕ) (a : β) (l : List β) :
    (insertAt pos a l).Perm (a :: l) := by
  unfold insertAt
  refine List.perm_middle.trans ?_
  rw [List.take_append_drop]

theorem mem_insertAt {β : Type} {pos : ℕ} {a b : β} {l : List β} :
    b ∈ insertAt pos a l ↔ b = a ∨ b ∈ l := by
  rw [(insertAt_perm pos a l).mem_iff, List.mem_cons]

theorem mem_scan : v ∈ (scan mine fate tab names).1 ↔ v ∈ tab ∧ (dirty mine fate v).1 = true :=
  List.mem_filter

/-- What the reader sees, a dirty read returns; `mine` has no transaction that has ended. -/
theorem dirty_of_seen (hmine : ∀ x, mine x = true → fate x = .running)
    (h : v.seen mine fate = true) :
    (dirty mine fate v).1 = true := by
  unfold Version.seen sees at h
  obtain ⟨hmin, hmax⟩ := Bool.and_eq_true_iff.mp h
  unfold dirty
  cases hm : mine v.xmin with
  | true =>
    cases hx : v.xmax with
    | none => rfl
    | some x => simp_all
  | false =>
    have hcommitted : fate v.xmin = .committed := by simpa [hm] using hmin
    rw [if_neg (by simp), hcommitted]
    cases hx : v.xmax with
    | none => rfl
    | some x =>
      have hnot : mine x = false ∧ fate x ≠ .committed := by simpa [hx] using hmax
      dsimp only
      rw [hnot.1, if_neg (by simp)]
      cases hfate : fate x with
      | running | aborted => rfl
      | committed => exact (hnot.2 hfate).elim

/-- The writer of a version that a dirty read returns has not been rolled back. -/
theorem fate_of_dirty (hmine : ∀ x, mine x = true → fate x = .running)
    (h : (dirty mine fate v).1 = true) : fate v.xmin ≠ .aborted := by
  intro habort
  unfold dirty at h
  cases hm : mine v.xmin with
  | true => simp [hmine _ hm] at habort
  | false => simp [hm, habort] at h

/-- What a dirty read returns is not deleted for the reader, if its writer is seen. -/
theorem xmax_of_dirty (hmin : sees mine fate v.xmin = true)
    (hfresh : mine v.xmin = true → ∀ x ∈ v.xmax, fate x ≠ .committed)
    (h : (dirty mine fate v).1 = true) : ∀ x ∈ v.xmax, sees mine fate x = false := by
  intro x hx
  unfold sees at hmin ⊢
  unfold dirty at h
  cases hm : mine v.xmin with
  | true =>
    have hnot : mine x = false := by simpa [hm, Option.mem_def.mp hx] using h
    simp [hnot, hfresh hm x hx]
  | false =>
    have hcommitted : fate v.xmin = .committed := by simpa [hm] using hmin
    simp only [hm, hcommitted, Option.mem_def.mp hx, Bool.false_eq_true, if_false] at h
    cases hmx : mine x with
    | true => simp [hmx] at h
    | false =>
      rw [hmx] at h
      cases hfate : fate x with
      | committed => simp [hfate] at h
      | running | aborted => rfl

end Dirty
