import PgColumnar.Iceberg.Deletes

/-!
# The index of the position deletes

The rows of the position-delete files are grouped by the data file they name, behind a hash of
the path (`ice_index_pos_deletes`); each data file then looks up its own rows
(`ice_pos_deletes_for`).

## Main definitions

* `iceIndexPosDeletes`, `icePosDeletesFor` — the index, and its lookup.

## Main results

* `icePosDeletesFor_eq` — the lookup finds what a walk finds.
-/

namespace PgColumnar.Iceberg

open Buckets

variable (hash : CString × Bool → ℕ)

/-- `ice_posdel_hash`: the tail of the path, with the flag as the seed. -/
def icePosdelHash (path : CString) : ℕ := hash (icePathTail path)

/-- `ice_index_pos_deletes` -/
def iceIndexPosDeletes (posdels : List IcePosDel) : Option (List (Bucket IcePosDel CString)) :=
  if posdels = [] then none
  else some (posdels.foldl (fun idx pd =>
    insert IcePosDel.dpath (icePosdelHash hash) icePathEq pd idx) [])

/-- `ice_pos_deletes_for` -/
def icePosDeletesFor (idx : Option (List (Bucket IcePosDel CString))) (dp : CString) :
    List IcePosDel :=
  match idx with
  | none => []
  | some idx => lookup (icePosdelHash hash) icePathEq dp idx

theorem icePathEq_symm (p q : CString) (h : icePathEq p q = true) : icePathEq q p = true :=
  decide_eq_true (of_decide_eq_true h).symm

theorem icePathEq_trans (p q r : CString) (hpq : icePathEq p q = true)
    (hqr : icePathEq q r = true) :
    icePathEq p r = true :=
  decide_eq_true ((of_decide_eq_true hpq).trans (of_decide_eq_true hqr))

theorem icePathEq_equivalence : Equivalence fun p q => icePathEq p q = true where
  refl _ := decide_eq_true rfl
  symm h := icePathEq_symm _ _ h
  trans hpq hqr := icePathEq_trans _ _ _ hpq hqr

theorem icePosdelHash_congr (p q : CString) (h : icePathEq p q = true) :
    icePosdelHash hash p = icePosdelHash hash q := by
  unfold icePosdelHash
  rw [of_decide_eq_true h]

/-- **The index is the walk.**  Paths are compared by an equivalence that the hash respects, and a
data file finds the rows whose path is its own, each once and in read order. -/
theorem icePosDeletesFor_eq : (Equivalence fun p q => icePathEq p q = true) ∧
    (∀ p q, icePathEq p q = true → icePosdelHash hash p = icePosdelHash hash q) ∧
    ∀ (posdels : List IcePosDel) (dp : CString),
      icePosDeletesFor hash (iceIndexPosDeletes hash posdels) dp =
        posdels.filter fun pd => icePathEq pd.dpath dp := by
  refine ⟨icePathEq_equivalence, icePosdelHash_congr hash, fun posdels dp => ?_⟩
  unfold iceIndexPosDeletes
  split
  · next hnone =>
    rw [hnone]
    rfl
  · exact lookup_foldl_insert icePathEq_symm icePathEq_trans (icePosdelHash_congr hash) posdels dp

/-- A constant hash, and two spellings of one path. -/
example : (icePosDeletesFor (fun _ => 0) (iceIndexPosDeletes (fun _ => 0)
    [⟨ascii "s3a://b/k", 1, 5⟩, ⟨ascii "/b/k", 2, 5⟩, ⟨ascii "s3://b/k", 3, 6⟩])
    (ascii "S3N://b/k")).map IcePosDel.pos = [1, 3] := by decide

end PgColumnar.Iceberg
