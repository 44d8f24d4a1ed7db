import Mathlib.Data.List.Basic

/-!
# Groups behind a hash

An index collects the elements of a list in groups, by a path that each of them has.  Paths are
compared by an equality of their own, and a hash that equal paths share leads to a bucket of groups.
A group is found by the path of its first element.
-/

namespace Buckets

open Bool

variable {α π : Type*}

/-- The elements of equal paths; `path` is that of the first. -/
structure Group (α π : Type*) where
  path : π
  rows : List α

structure Bucket (α π : Type*) where
  hash : ℕ
  groups : List (Group α π)

section

variable (path : α → π) (hash : π → ℕ) (same : π → π → Bool)

/-- An element goes to the first group of its path, or to a new one. -/
def insertGroup (a : α) : List (Group α π) → List (Group α π)
  | [] => [⟨path a, [a]⟩]
  | g :: gs => if same g.path (path a) then ⟨g.path, g.rows ++ [a]⟩ :: gs else g :: insertGroup a gs

def insert (a : α) : List (Bucket α π) → List (Bucket α π)
  | [] => [⟨hash (path a), insertGroup path same a []⟩]
  | b :: bs => if b.hash = hash (path a) then ⟨b.hash, insertGroup path same a b.groups⟩ ::
    bs else b :: insert a bs

def lookupGroup (p : π) (gs : List (Group α π)) : List α :=
  ((gs.find? fun g => same g.path p).map Group.rows).getD []

def lookup (p : π) (bs : List (Bucket α π)) : List α :=
  ((bs.find? fun b => b.hash = hash p).map fun b => lookupGroup same p b.groups).getD []

end

variable {path : α → π} {hash : π → ℕ} {same : π → π → Bool} {a : α} {p : π}

theorem lookupGroup_insertGroup (hsymm : ∀ p q, same p q = true → same q p = true)
    (htrans : ∀ p q r, same p q = true → same q r = true → same p r = true)
    (gs : List (Group α π)) :
    lookupGroup same p (insertGroup path same a gs) =
      lookupGroup same p gs ++ if same (path a) p then [a] else [] := by
  induction gs with
  | nil => cases h : same (path a) p <;> simp [insertGroup, lookupGroup, h]
  | cons g gs ih =>
    unfold lookupGroup at ih
    rw [insertGroup]
    cases ha : same g.path (path a) with
    | true =>
      -- the element is of this group, as is the path if the element has it
      cases hp : same g.path p with
      | true => simp [lookupGroup, hp, htrans _ _ _ (hsymm _ _ ha) hp]
      | false =>
        have hnot : same (path a) p = false := of_not_eq_true fun h => by
          simp [htrans _ _ _ ha h] at hp
        simp [lookupGroup, hp, hnot]
    | false =>
      cases hp : same g.path p with
      | true =>
        have hnot : same (path a) p = false :=
          of_not_eq_true fun h => by simp [htrans _ _ _ hp (hsymm _ _ h)] at ha
        simp [lookupGroup, hp, hnot]
      | false => simpa [lookupGroup, hp] using ih

theorem lookup_insert (hsymm : ∀ p q, same p q = true → same q p = true)
    (htrans : ∀ p q r, same p q = true → same q r = true → same p r = true)
    (hhash : ∀ p q, same p q = true → hash p = hash q) (bs : List (Bucket α π)) :
    lookup hash same p (insert path hash same a bs) =
      lookup hash same p bs ++ if same (path a) p then [a] else [] := by
  induction bs with
  | nil =>
    have hnew : lookupGroup same p (insertGroup path same a []) =
        lookupGroup same p [] ++ if same (path a) p then [a] else [] :=
          lookupGroup_insertGroup hsymm htrans []
    by_cases h : hash (path a) = hash p
    · simpa [insert, lookup, h, lookupGroup] using hnew
    · have hnot : same (path a) p = false := of_not_eq_true fun hs => h (hhash _ _ hs)
      simp [insert, lookup, h, hnot]
  | cons b bs ih =>
    unfold lookup at ih
    rw [insert]
    by_cases hb : b.hash = hash (path a)
    · rw [if_pos hb]
      by_cases hp : b.hash = hash p
      · simp [lookup, hp, lookupGroup_insertGroup hsymm htrans]
      · have hnot : same (path a) p = false := of_not_eq_true fun hs => hp (hb.trans (hhash _ _ hs))
        simp [lookup, hp, hnot]
    · rw [if_neg hb]
      by_cases hp : b.hash = hash p
      · have hnot : same (path a) p = false :=
          of_not_eq_true fun hs => hb (hp.trans (hhash _ _ hs).symm)
        simp [lookup, hp, hnot]
      · simpa [lookup, hp] using ih

/-- The index of a list gives for a path the elements that have it. -/
theorem lookup_foldl_insert (hsymm : ∀ p q, same p q = true → same q p = true)
    (htrans : ∀ p q r, same p q = true → same q r = true → same p r = true)
    (hhash : ∀ p q, same p q = true → hash p = hash q) (l : List α) (p : π) :
    lookup hash same p (l.foldl (fun bs a => insert path hash same a bs) []) =
      l.filter fun a => same (path a) p := by
  suffices h : ∀ bs, lookup hash same p (l.foldl (fun bs a => insert path hash same a bs) bs) =
      lookup hash same p bs ++ l.filter fun a => same (path a) p from h []
  induction l with
  | nil => exact fun bs => (List.append_nil _).symm
  | cons a l ih =>
    intro bs
    rw [List.foldl_cons, ih, lookup_insert hsymm htrans hhash, List.filter_cons, List.append_assoc]
    split <;> rfl

end Buckets
