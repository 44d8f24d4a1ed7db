import Mathlib.Data.List.Basic

/-!
# Reading from a buffer that is filled piece by piece

A reader looks at the symbols received so far.  It takes what it needs of them, or it takes some and
waits for the next piece.  Where its look does not depend on what follows, the result depends only
on the stream, not on how the stream was cut into pieces.

## Main definitions

* `drive` — read from what has come in, or wait for more.

## Main results

* `drive_eq_whole` — the pieces do not matter.
-/

namespace Staged

open List

variable {α σ β ε : Type*}

/-- What one look at the buffer gives, with the symbols that stay in it. -/
inductive Look (α σ β : Type*)
  | done (b : β) (rest : List α)
  | more (s : σ) (rest : List α)

/-- Look at the buffer, and when that does not end the reading, receive a piece and look again. -/
def drive (look : σ → List α → Except ε (Look α σ β)) (eof : σ → List α → Except ε β) :
    σ → List α → List (List α) → Except ε (β × List α × List (List α))
  | s, staged, [] =>
    match look s staged with
    | .error e => .error e
    | .ok (.done b rest) => .ok (b, rest, [])
    | .ok (.more s' rest) => (eof s' rest).map fun b => (b, rest, [])
  | s, staged, r :: rs =>
    match look s staged with
    | .error e => .error e
    | .ok (.done b rest) => .ok (b, rest, r :: rs)
    | .ok (.more s' rest) => drive look eof s' (rest ++ r) rs

/-- One look at the whole stream. -/
def whole (look : σ → List α → Except ε (Look α σ β)) (eof : σ → List α → Except ε β)
    (s : σ) (stream : List α) : Except ε (β × List α) :=
  match look s stream with
  | .error e => .error e
  | .ok (.done b rest) => .ok (b, rest)
  | .ok (.more s' rest) => (eof s' rest).map fun b => (b, rest)

/-- What was found stays found, and what was put off is found as it would have been. -/
structure Resumable (look : σ → List α → Except ε (Look α σ β)) : Prop where
  done : ∀ {s x b rest}, look s x = .ok (.done b rest) →
    ∀ y, look s (x ++ y) = .ok (.done b (rest ++ y))
  more : ∀ {s x s' rest}, look s x = .ok (.more s' rest) →
    ∀ y, look s (x ++ y) = look s' (rest ++ y)

/-- An error stays one whatever follows. -/
def Final (look : σ → List α → Except ε (Look α σ β)) : Prop :=
  ∀ {s x e}, look s x = .error e → ∀ y, look s (x ++ y) = .error e

theorem Resumable.whole_more {look : σ → List α → Except ε (Look α σ β)}
    {eof : σ → List α → Except ε β} (h : Resumable look) {s s' : σ} {x rest : List α}
    (hx : look s x = .ok (.more s' rest)) (y : List α) :
    whole look eof s (x ++ y) = whole look eof s' (rest ++ y) := by
  rw [whole, h.more hx y, whole]

/-- The result and the symbols that are still to come. -/
def toStream : β × List α × List (List α) → β × List α
  | (b, rest, rs) => (b, rest ++ rs.flatten)

/-- A result is the one for the whole stream.  An error comes from a look or from the end of the
stream, and errors that stay are those for the whole stream. -/
theorem drive_spec {look : σ → List α → Except ε (Look α σ β)} {eof : σ → List α → Except ε β}
    (h : Resumable look) (s : σ) (staged : List α) (recvs : List (List α)) :
    (∀ r, drive look eof s staged recvs = .ok r →
      whole look eof s (staged ++ recvs.flatten) = .ok (toStream r)) ∧
    ∀ e, drive look eof s staged recvs = .error e →
      ((∃ s x, look s x = .error e) ∨ ∃ s x, eof s x = .error e) ∧
        (Final look → whole look eof s (staged ++ recvs.flatten) = .error e) := by
  induction recvs generalizing s staged with
  | nil =>
    rw [drive, flatten_nil, append_nil, whole]
    cases hl : look s staged with
    | error e =>
      refine ⟨nofun, ?_⟩
      rintro _ ⟨⟩
      exact ⟨.inl ⟨s, staged, hl⟩, fun _ => rfl⟩
    | ok l =>
      cases l with
      | done b rest =>
        refine ⟨?_, nofun⟩
        rintro _ ⟨⟩
        simp [toStream]
      | more s' rest =>
        dsimp only
        cases he : eof s' rest with
        | error e =>
          refine ⟨nofun, ?_⟩
          rintro _ ⟨⟩
          exact ⟨.inr ⟨s', rest, he⟩, fun _ => rfl⟩
        | ok b =>
          refine ⟨?_, nofun⟩
          rintro _ ⟨⟩
          simp [Except.map, toStream]
  | cons r recvs ih =>
    rw [drive]
    cases hl : look s staged with
    | error e =>
      refine ⟨nofun, ?_⟩
      rintro _ ⟨⟩
      exact ⟨.inl ⟨s, staged, hl⟩, fun hf => by rw [whole, hf hl]⟩
    | ok l =>
      cases l with
      | done b rest =>
        refine ⟨?_, nofun⟩
        rintro _ ⟨⟩
        rw [whole, h.done hl]
        rfl
      | more s' rest =>
        rw [h.whole_more hl, flatten_cons, ← append_assoc]
        exact ih s' (rest ++ r)

/-- **Reading depends only on the stream**, not on the pieces. -/
theorem drive_eq_whole {look : σ → List α → Except ε (Look α σ β)} {eof : σ → List α → Except ε β}
    (h : Resumable look) (hf : Final look) (s : σ) (staged : List α)
    (recvs : List (List α)) :
    (drive look eof s staged recvs).map toStream = whole look eof s (staged ++ recvs.flatten) := by
  obtain ⟨hok, herror⟩ := @drive_spec _ _ _ _ look eof h s staged recvs
  cases hd : drive look eof s staged recvs with
  | error e => exact ((herror e hd).2 hf).symm
  | ok r => exact (hok r hd).symm

end Staged
