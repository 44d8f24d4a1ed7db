import Mathlib.Data.List.Infix

/-!
# Patterns with wildcards

A pattern is read into tokens: literals, of which an escape makes one from any symbol, the two
wildcards, and an escape with nothing behind it, which matches nothing.  What a character of the
text is, is a parameter: the wildcards move over whole characters, the literals over symbols.
-/

namespace Like

variable {α : Type}

/-- The symbols that are not literals. -/
structure Syntax (α : Type) where
  escape : α
  many : α
  one : α

inductive Token (α : Type)
  | lit (a : α)
  | one
  | many
  /-- an escape at the end of the pattern -/
  | dangling
  deriving DecidableEq

def tokens [DecidableEq α] (s : Syntax α) : List α → List (Token α)
  | [] => []
  | [c] =>
    if c = s.escape then [.dangling]
    else if c = s.many then [.many]
    else if c = s.one then [.one]
    else [.lit c]
  | c :: b :: rest =>
    if c = s.escape then .lit b :: tokens s rest
    else if c = s.many then .many :: tokens s (b :: rest)
    else if c = s.one then .one :: tokens s (b :: rest)
    else .lit c :: tokens s (b :: rest)

theorem tokens_escape [DecidableEq α] {s : Syntax α} (b : α) (rest : List α) :
    tokens s (s.escape :: b :: rest) = .lit b :: tokens s rest := by
  rw [tokens, if_pos rfl]

/-- A text matches; `next` leaves out the first character of a text. -/
inductive Matches (next : List α → List α) : List (Token α) → List α → Prop
  | nil : Matches next [] []
  | lit {a : α} {ts : List (Token α)} {t : List α} :
      Matches next ts t → Matches next (.lit a :: ts) (a :: t)
  | one {ts : List (Token α)} {t : List α} :
      t ≠ [] → Matches next ts (next t) → Matches next (.one :: ts) t
  | skip {ts : List (Token α)} {t : List α} : Matches next ts t → Matches next (.many :: ts) t
  | more {ts : List (Token α)} {t : List α} :
      t ≠ [] → Matches next (.many :: ts) (next t) → Matches next (.many :: ts) t

/-- The literals in front of the first other token. -/
def literals : List (Token α) → List α
  | .lit a :: ts => a :: literals ts
  | _ => []

/-- **A matching text starts with the literals in front.** -/
theorem Matches.literals_isPrefix {next : List α → List α} {ts : List (Token α)} {t : List α}
    (h : Matches next ts t) : literals ts <+: t := by
  induction h with
  | nil | one | skip | more => exact List.nil_prefix
  | lit _ ih => exact List.cons_prefix_cons.mpr ⟨rfl, ih⟩

section Tokens

variable [DecidableEq α] {s : Syntax α}

theorem literals_tokens_dangling : literals (tokens s [s.escape]) = [] := by
  rw [tokens, if_pos rfl]
  rfl

/-- A wildcard ends the literals. -/
theorem literals_tokens_wildcard {c : α} (hc : c ≠ s.escape) (hw : c = s.many ∨ c = s.one)
    (rest : List α) : literals (tokens s (c :: rest)) = [] := by
  by_cases hm : c = s.many
  · cases rest <;> rw [tokens, if_neg hc, if_pos hm] <;> rfl
  · have ho := hw.resolve_left hm
    cases rest <;> rw [tokens, if_neg hc, if_neg hm, if_pos ho] <;> rfl

theorem literals_tokens_literal {c : α} (hc : c ≠ s.escape) (hm : c ≠ s.many) (ho : c ≠ s.one)
    (rest : List α) : literals (tokens s (c :: rest)) = c :: literals (tokens s rest) := by
  cases rest <;> simp only [tokens, if_neg hc, if_neg hm, if_neg ho, literals]

end Tokens

end Like
