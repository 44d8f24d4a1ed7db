import PgColumnar.Lib.Bytes

/-!
# Reading a buffer at a position

A reader holds a buffer and a position in it.  Reading past the end is a fault of the reader,
which a program that checks its bounds never meets.
-/

namespace Cursor

open Bytes List

/-- A read outside the buffer. -/
inductive Fault
  | outOfBounds
  deriving DecidableEq

def byteAt (buf : List Byte) (pos : ℕ) : Except Fault Byte :=
  match buf[pos]? with
  | some b => .ok b
  | none => .error .outOfBounds

def takeAt (buf : List Byte) (pos n : ℕ) : Except Fault (List Byte) :=
  match slice buf pos n with
  | some bs => .ok bs
  | none => .error .outOfBounds

def At (buf : List Byte) (pos : ℕ) (bs : List Byte) : Prop :=
  ∃ pre post, buf = pre ++ (bs ++ post) ∧ pre.length = pos

variable {buf as bs : List Byte} {b : Byte} {pos n : ℕ}

theorem at_zero (bs tail : List Byte) : At (bs ++ tail) 0 bs := ⟨[], tail, rfl, rfl⟩

theorem at_append : At buf pos (as ++ bs) ↔ At buf pos as ∧ At buf (pos + as.length) bs := by
  constructor
  · intro h
    obtain ⟨pre, post, rfl, rfl⟩ := h
    exact ⟨⟨pre, bs ++ post, by simp, rfl⟩, pre ++ as, post, by simp, by simp⟩
  · intro h
    obtain ⟨⟨pre, post, rfl, rfl⟩, pre', post', h, hlen⟩ := h
    have happ : (pre ++ as) ++ post = pre' ++ (bs ++ post') := by
      rw [← h, append_assoc]
    have hpre : pre ++ as = pre' := append_inj_left happ (by rw [length_append, hlen])
    subst hpre
    rw [append_assoc, append_cancel_left_eq, append_cancel_left_eq] at h
    exact ⟨pre, post', by simp [h], rfl⟩

theorem at_cons : At buf pos (b :: bs) ↔ At buf pos [b] ∧ At buf (pos + 1) bs := by
  rw [← singleton_append, at_append, length_singleton]

theorem At.le (h : At buf pos bs) : pos + bs.length ≤ buf.length := by
  obtain ⟨pre, post, rfl, rfl⟩ := h
  simp

theorem At.drop (h : At buf pos bs) : ∃ post, buf.drop pos = bs ++ post := by
  obtain ⟨pre, post, rfl, rfl⟩ := h
  exact ⟨post, by simp⟩

theorem At.slice (h : At buf pos bs) : slice buf pos bs.length = some bs := by
  obtain ⟨pre, post, rfl, rfl⟩ := h
  exact slice_append pre bs post

theorem at_of_slice (h : slice buf pos n = some bs) : At buf pos bs ∧ bs.length = n := by
  unfold Bytes.slice at h
  split_ifs at h with hle
  cases h
  refine ⟨⟨buf.take pos, buf.drop (pos + n), ?_, by simp; omega⟩, by simp; omega⟩
  rw [← drop_drop, take_append_drop, take_append_drop]

/-! ### Reads -/

theorem byteAt_of_at (h : At buf pos (b :: bs)) : byteAt buf pos = .ok b := by
  obtain ⟨pre, post, rfl, rfl⟩ := h
  simp [byteAt]

theorem byteAt_ok (h : pos < buf.length) : ∃ b, byteAt buf pos = .ok b :=
  ⟨buf[pos], by simp [byteAt, h]⟩

theorem takeAt_of_at (h : At buf pos bs) : takeAt buf pos bs.length = .ok bs := by
  simp [takeAt, h.slice]

theorem takeAt_ok (h : pos + n ≤ buf.length) :
    ∃ bs, takeAt buf pos n = .ok bs ∧ At buf pos bs ∧ bs.length = n := by
  have hslice := slice_eq_some h
  exact ⟨_, by simp [takeAt, hslice], at_of_slice hslice⟩

end Cursor
