import Mathlib.Data.List.Infix

/-!
# Splitting at a separator of several symbols

A text is cut at each occurrence of a separator, from the left, an occurrence ending before the next
one is looked for.  Pieces joined with the separator are found again exactly if no occurrence begins
before its place; an occurrence may begin inside a piece and end in the separator behind it.
-/

namespace Split

open List

variable {α : Type} {sep : List α}

def join (sep : List α) : List (List α) → List α
  | [] => []
  | [x] => x
  | x :: xs => x ++ sep ++ join sep xs

theorem join_cons_cons (x y : List α) (ys : List (List α)) :
    join sep (x :: y :: ys) = x ++ sep ++ join sep (y :: ys) := rfl

/-- In no piece but the last does the separator begin before its place behind the piece, and the
last piece does not hold it. -/
def Separable (sep : List α) : List (List α) → Prop
  | [] => True
  | [x] => ¬ sep <:+: x
  | x :: xs => ¬ sep <:+: (x ++ sep).dropLast ∧ Separable sep xs

theorem separable_cons_cons (x y : List α) (ys : List (List α)) :
    Separable sep (x :: y :: ys) ↔ ¬ sep <:+: (x ++ sep).dropLast ∧
      Separable sep (y :: ys) := Iff.rfl

/-- A separator does not fit into a part of itself. -/
theorem not_infix_dropLast (hsep : sep ≠ []) : ¬ sep <:+: sep.dropLast := by
  intro h
  have hle := h.length_le
  have := length_pos_of_ne_nil hsep
  rw [length_dropLast] at hle
  omega

/-- A text that holds the separator has a first occurrence. -/
theorem exists_first (hsep : sep ≠ []) {s : List α} (h : sep <:+: s) :
    ∃ x t, s = x ++ sep ++ t ∧ ¬ sep <:+: (x ++ sep).dropLast := by
  induction s with
  | nil => exact absurd (eq_nil_of_infix_nil h) hsep
  | cons c s ih =>
    by_cases hp : sep <+: c :: s
    · obtain ⟨t, ht⟩ := hp
      exact ⟨[], t, ht.symm, not_infix_dropLast hsep⟩
    · obtain ⟨x, t, rfl, hx⟩ := ih ((infix_cons_iff.mp h).resolve_left hp)
      refine ⟨c :: x, t, rfl, ?_⟩
      have hne : x ++ sep ≠ [] := by simp [hsep]
      rw [cons_append, dropLast_cons_of_ne_nil hne, infix_cons_iff, not_or]
      refine ⟨fun hpre => hp ?_, hx⟩
      refine hpre.trans (cons_prefix_cons.mpr ⟨rfl, ?_⟩)
      exact ( dropLast_prefix (x ++ sep)).trans (prefix_append _ _)

variable [DecidableEq α]

instance decidableSeparable : (xs : List (List α)) → Decidable (Separable sep xs)
  | [] => .isTrue trivial
  | [x] => inferInstanceAs (Decidable (¬ sep <:+: x))
  | x :: y :: ys =>
    have := decidableSeparable (y :: ys)
    inferInstanceAs (Decidable (¬ sep <:+: (x ++ sep).dropLast ∧ Separable sep (y :: ys)))

/-- The cutting, with the symbols of the occurrence still to be left out and the piece so far. -/
def go (sep : List α) : ℕ → List α → List α → List (List α)
  | _, acc, [] => [acc]
  | 0, acc, c :: s =>
    if sep.isPrefixOf (c :: s) then acc :: go sep (sep.length - 1) [] s else go sep 0 (acc ++ [c]) s
  | n + 1, acc, _ :: s => go sep n acc s

def split (sep s : List α) : List (List α) := go sep 0 [] s

theorem go_skip (u t : List α) : ∀ acc, go sep u.length acc (u ++ t) = go sep 0 acc t := by
  induction u with
  | nil => intro acc; rfl
  | cons c u ih =>
    intro acc
    rw [length_cons, cons_append, go]
    exact ih acc

theorem go_found (hsep : sep ≠ []) (acc t : List α) :
    go sep 0 acc (sep ++ t) = acc :: go sep 0 [] t := by
  obtain ⟨c, u, rfl⟩ := exists_cons_of_ne_nil hsep
  rw [cons_append, go, if_pos (by simp [ isPrefixOf_iff_prefix])]
  exact congrArg (acc :: ·) (go_skip u t [])

theorem go_ne_nil (n : ℕ) (acc s : List α) : go sep n acc s ≠ [] := by
  fun_induction go sep n acc s with
  | case1 | case2 => simp
  | case3 _ _ _ _ ih | case4 _ _ _ _ ih => exact ih

theorem go_step {c : α} {s : List α} (h : ¬ sep <+: c :: s) (acc : List α) :
    go sep 0 acc (c :: s) = go sep 0 (acc ++ [c]) s := by
  rw [go]
  apply if_neg
  rwa [ isPrefixOf_iff_prefix]

/-- The piece in front of the first occurrence is cut off. -/
theorem go_first (hsep : sep ≠ []) (t x : List α) : ∀ acc, ¬ sep <:+: (x ++ sep).dropLast →
    go sep 0 acc (x ++ sep ++ t) = (acc ++ x) :: go sep 0 [] t := by
  induction x with
  | nil =>
    intro acc _
    rw [nil_append, go_found hsep, append_nil]
  | cons c x ih =>
    intro acc h
    have hne : x ++ sep ≠ [] := by simp [hsep]
    rw [cons_append, dropLast_cons_of_ne_nil hne] at h
    have hnot : ¬ sep <+: c :: (x ++ sep ++ t) := by
      intro hp
      -- the occurrence ends before the last symbol of the piece and its separator
      have hpart : c :: (x ++ sep).dropLast <+: c :: (x ++ sep ++ t) := by
        rw [cons_prefix_cons]
        exact ⟨rfl, ( dropLast_prefix (x ++ sep)).trans (prefix_append _ _)⟩
      have hlen : sep.length ≤ (c :: (x ++ sep).dropLast).length := by
        have := length_pos_of_ne_nil hsep
        simp only [length_cons, length_dropLast, length_append]
        omega
      exact h (prefix_of_prefix_length_le hp hpart hlen).isInfix
    rw [cons_append, cons_append, go_step hnot,
      ih (acc ++ [c]) (fun hi => h (hi.trans (suffix_cons c _).isInfix)), append_assoc]
    rfl

theorem go_last (x : List α) : ∀ acc, ¬ sep <:+: x → go sep 0 acc x = [acc ++ x] := by
  induction x with
  | nil =>
    intro acc _
    rw [append_nil]
    rfl
  | cons c x ih =>
    intro acc h
    rw [go_step (fun hp => h hp.isInfix), ih (acc ++ [c]) fun hi =>
      h (hi.trans (suffix_cons c x).isInfix), append_assoc]
    rfl

theorem split_first {x : List α} (hsep : sep ≠ []) (t : List α)
    (h : ¬ sep <:+: (x ++ sep).dropLast) : split sep (x ++ sep ++ t) = x :: split sep t :=
  go_first hsep t x [] h

/-- If the first piece is found, no occurrence begins in it. -/
theorem not_infix_of_split {x : List α} (hsep : sep ≠ []) {t : List α} {ls : List (List α)}
    (h : split sep (x ++ sep ++ t) = x :: ls) : ¬ sep <:+: (x ++ sep).dropLast := by
  intro hi
  obtain ⟨y, u, hy, hfirst⟩ := exists_first hsep
        (hi.trans (List.IsPrefix.isInfix ( dropLast_prefix (x ++ sep))))
  have hlen : y.length < x.length := by
    by_contra hle
    -- then the first occurrence is the one behind the piece
    have hlens := congrArg List.length hy
    simp only [length_append] at hlens
    obtain ⟨rfl, -⟩ : x = y ∧ sep = sep ++ u := by
      have hxy : y.length = x.length := by omega
      rw [append_assoc] at hy
      exact append_inj hy hxy.symm
    exact hfirst hi
  rw [hy, append_assoc, split_first hsep _ hfirst] at h
  obtain rfl := (List.cons.inj h).1
  exact lt_irrefl _ hlen

/-- **Exactly separable pieces are found again.** -/
theorem split_join_iff (hsep : sep ≠ []) {xs : List (List α)} (hne : xs ≠ []) :
    split sep (join sep xs) = xs ↔ Separable sep xs := by
  induction xs with
  | nil => exact absurd rfl hne
  | cons x xs ih =>
    cases xs with
    | nil =>
      constructor
      · intro h hi
        obtain ⟨y, t, hy, hfirst⟩ := exists_first hsep hi
        rw [join, hy, split_first hsep t hfirst] at h
        exact go_ne_nil 0 [] t (List.cons.inj h).2
      · exact go_last _ []
    | cons y ys =>
      rw [join_cons_cons, separable_cons_cons, ← ih (by simp)]
      constructor
      · intro h
        have hfirst := not_infix_of_split hsep h
        rw [split_first hsep _ hfirst] at h
        exact ⟨hfirst, (List.cons.inj h).2⟩
      · intro h
        rw [split_first hsep _ h.1, h.2]

end Split
