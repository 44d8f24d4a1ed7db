import Mathlib.Data.List.Basic

/-!
# Lists of numbered entries

A catalog grows at its end and changes entries in place, so an entry is known by its
place.  The lemmas say what stands at a place after each, and how many entries count.
-/

namespace Catalog

open List

variable {α : Type*} {l : List α} {a b : α} {i j : ℕ}

theorem getElem?_concat_eq_some :
    (l ++ [a])[i]? = some b ↔ l[i]? = some b ∨ i = l.length ∧ b = a := by
  rw [getElem?_append]
  split
  · next h => simp only [Nat.ne_of_lt h, false_and, or_false]
  · next h =>
    rw [getElem?_singleton, getElem?_eq_none (Nat.le_of_not_lt h)]
    split
    · next h0 =>
      have hlen : i = l.length := by omega
      simp only [hlen, true_and, reduceCtorEq, false_or, Option.some.injEq, eq_comm]
    · next h0 =>
      have hlen : i ≠ l.length := by omega
      simp only [hlen, false_and, reduceCtorEq, or_false]

theorem getElem?_modify_eq_some {f : α → α} :
    (l.modify i f)[j]? = some b ↔ ∃ a, l[j]? = some a ∧ b = if i = j then f a else a := by
  rw [getElem?_modify]
  cases l[j]? with
  | none => simp
  | some a => simp [eq_comm]

theorem getElem?_set_eq_some (h : l[i]? = some a) {c : α} :
    (l.set i b)[j]? = some c ↔ i = j ∧ c = b ∨ i ≠ j ∧ l[j]? = some c := by
  rw [getElem?_set]
  split
  · next hij =>
    subst hij
    rw [if_pos (List.getElem?_eq_some_iff.mp h).1]
    simp only [Option.some.injEq, true_and, not_true_eq_false, false_and, or_false, eq_comm, ne_eq]
  · next hij => simp only [hij, false_and, not_false_eq_true, true_and, false_or, ne_eq]

theorem mem_set_iff (h : l[i]? = some a) {c : α} :
    c ∈ l.set i b ↔ c = b ∨ ∃ j, i ≠ j ∧ l[j]? = some c := by
  rw [mem_iff_getElem?]
  constructor
  · rintro ⟨j, hj⟩
    rcases (getElem?_set_eq_some h).mp hj with ⟨_, hc⟩ | hc
    · exact .inl hc
    · exact .inr ⟨j, hc⟩
  · rintro (hc | ⟨j, hc⟩)
    · exact ⟨i, (getElem?_set_eq_some h).mpr (.inl ⟨rfl, hc⟩)⟩
    · exact ⟨j, (getElem?_set_eq_some h).mpr (.inr hc)⟩

/-- An entry that did not count before and counts now. -/
theorem countP_set_of_pos {p : α → Bool} (h : l[i]? = some a) (ha : p a = false)
    (hb : p b = true) : (l.set i b).countP p = l.countP p + 1 := by
  obtain ⟨hi, rfl⟩ := List.getElem?_eq_some_iff.mp h
  rw [countP_set hi, if_pos hb, if_neg (by rw [ha]; exact Bool.false_ne_true)]
  rfl

/-- An entry that neither counted before nor does now. -/
theorem countP_set_of_neg {p : α → Bool} (h : l[i]? = some a) (ha : p a = false)
    (hb : p b = false) : (l.set i b).countP p = l.countP p := by
  obtain ⟨hi, rfl⟩ := List.getElem?_eq_some_iff.mp h
  rw [countP_set hi, if_neg (by rw [ha]; exact Bool.false_ne_true),
    if_neg (by rw [hb]; exact Bool.false_ne_true)]
  rfl

theorem findIdx?_congr {p : α → Bool} {q : α → Bool} (h : ∀ a ∈ l, p a = q a) :
    l.findIdx? p = l.findIdx? q := by
  induction l with
  | nil => rfl
  | cons a l ih =>
    rw [findIdx?_cons, findIdx?_cons, h a mem_cons_self, ih fun b hb => h b (mem_cons_of_mem _ hb)]

theorem mem_take_iff {n : ℕ} : a ∈ l.take n ↔ ∃ i < n, l[i]? = some a := by
  rw [mem_iff_getElem?]
  constructor
  · intro h
    obtain ⟨i, hi⟩ := h
    rw [getElem?_take] at hi
    split_ifs at hi with hlt
    exact ⟨i, hlt, hi⟩
  · intro h
    obtain ⟨i, hlt, hi⟩ := h
    exact ⟨i, by rw [getElem?_take_of_lt hlt]; exact hi⟩

end Catalog
