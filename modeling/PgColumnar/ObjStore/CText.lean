import PgColumnar.Iceberg.Deletes
import PgColumnar.Lib.Percent

/-!
# C strings

The functions of the C library that the object-store module reads the server's texts with.  A string
is the bytes before its terminator, and a byte 0 among them ends it early.
-/

namespace PgColumnar.ObjStore

open Bytes Iceberg List

/-- `LLONG_MAX` -/
def llongMax : ℕ := 2 ^ 63 - 1

def isSpace (b : Byte) : Bool := b == 32 || decide (9 ≤ b.toNat ∧ b.toNat ≤ 13)

def digit (base : ℕ) (b : Byte) : Option ℕ := (Percent.hexDigit b).filter (· < base)

/-- The digits up to the first byte that is none. -/
def digits (base : ℕ) : CString → List ℕ
  | [] => []
  | b :: s =>
    match digit base b with
    | some d => d :: digits base s
    | none => []

def number (base : ℕ) (ds : List ℕ) : ℕ := ds.foldl (fun n d => n * base + d) 0

/-- The text behind `0x`, if a digit follows there. -/
def skipBasePrefix (base : ℕ) : CString → CString
  | 48 :: x :: d :: s =>
    if base = 16 ∧ (x = 120 ∨ x = 88) ∧ (digit 16 d).isSome then d :: s else 48 :: x :: d :: s
  | s => s

/-- The number without its sign. -/
def magnitude (base : ℕ) (s : CString) : ℕ := number base (digits base (skipBasePrefix base s))

/-- `strtoll`: white space, a sign, digits.  No digit is 0, and what follows them is not looked
at. -/
def strtoll (base : ℕ) (s : CString) : ℤ :=
  match s.dropWhile isSpace with
  | 45 :: t => -(min (magnitude base t) (2 ^ 63) : ℕ)
  | 43 :: t => (min (magnitude base t) llongMax : ℕ)
  | t => (min (magnitude base t) llongMax : ℕ)

/-- `atoi` cuts the number to an `int`. -/
def atoi (s : CString) : ℤ := (strtoll 10 s).bmod (2 ^ 32)

/-- The index of the first occurrence in the string. -/
def strstr (s text : CString) : Option ℕ :=
  match s with
  | [] => if text = [] then some 0 else none
  | b :: t =>
    if text.isPrefixOf (b :: t) then some 0
    else if b = 0 then none
    else (strstr t text).map (· + 1)

def startsCase (name s : CString) : Bool := caseEq name (s.take name.length)

/-- The number of a text of digits. -/
def numeral (base : ℕ) (s : CString) : Option ℕ :=
  if s ≠ [] ∧ ∀ b ∈ s, (digit base b).isSome then some (number base (s.filterMap (digit base)))
    else none

/-! ### Numbers -/

variable {base : ℕ} {s : CString}

theorem numeral_eq_some {n : ℕ} : numeral base s = some n ↔
    s ≠ [] ∧ (∀ b ∈ s, (digit base b).isSome) ∧ number base (s.filterMap (digit base)) = n := by
  unfold numeral
  split
  · next h =>
    rw [Option.some.injEq]
    exact ⟨fun hn => ⟨h.1, h.2, hn⟩, fun hn => hn.2.2⟩
  · next h => exact ⟨nofun, fun hn => absurd ⟨hn.1, hn.2.1⟩ h⟩

theorem digits_append {rest : CString} {ds : CString} (hds : ∀ b ∈ ds, (digit base b).isSome)
    (hrest : ∀ b t, rest = b :: t → digit base b = none) :
    digits base (ds ++ rest) = ds.filterMap (digit base) := by
  induction ds with
  | nil =>
    cases rest with
    | nil => rfl
    | cons b t => simp only [nil_append, digits, hrest b t rfl, filterMap_nil]
  | cons b ds ih =>
    obtain ⟨d, hd⟩ := Option.isSome_iff_exists.mp (hds b mem_cons_self)
    have hds' : ∀ b ∈ ds, (digit base b).isSome := fun x hx => hds x (mem_cons_of_mem b hx)
    rw [cons_append, digits, hd, filterMap_cons_some hd]
    simp only [ih hds']

variable {b : Byte}

/-- The bytes that are digits in some base. -/
theorem range_of_digit (h : (digit base b).isSome) :
    48 ≤ b.toNat ∧ b.toNat ≤ 57 ∨ 97 ≤ b.toNat ∧ b.toNat ≤ 102 ∨ 65 ≤ b.toNat ∧ b.toNat ≤ 70 := by
  have hx : (Percent.hexDigit b).isSome := by
    obtain ⟨d, hd⟩ := Option.isSome_iff_exists.mp h
    rw [(Option.filter_eq_some_iff.mp hd).1]
    rfl
  unfold Percent.hexDigit at hx
  split_ifs at hx with h₁ h₂ h₃
  · exact .inl h₁
  · exact .inr (.inl h₂)
  · exact .inr (.inr h₃)
  · cases hx

theorem ne_of_digit (h : (digit base b).isSome) (c : Byte)
    (hc : c.toNat < 48 ∨ 57 < c.toNat ∧ c.toNat < 65 ∨ 70 < c.toNat ∧ c.toNat < 97 ∨
      102 < c.toNat) :
    b ≠ c := by
  intro hbc
  have := range_of_digit h
  rw [hbc] at this
  omega

theorem isSpace_of_digit (h : (digit base b).isSome) : isSpace b = false := by
  have hr := range_of_digit h
  have h32 : b ≠ 32 := ne_of_digit h 32 (.inl (by decide))
  simp only [isSpace, Bool.or_eq_false_iff, beq_eq_false_iff_ne, decide_eq_false_iff_not]
  exact ⟨h32, by omega⟩

/-- A text of digits does not begin with `0x`. -/
theorem skipBasePrefix_eq {rest : CString} (hne : s ≠ [])
    (hs : ∀ b ∈ s, (digit base b).isSome) (hrest : ∀ b t, rest = b :: t → b ≠ 120 ∧ b ≠ 88) :
    skipBasePrefix base (s ++ rest) = s ++ rest := by
  unfold skipBasePrefix
  split
  · next x d t heq =>
    have hx : ¬ (x = 120 ∨ x = 88) := by
      rw [not_or]
      match s, hne, heq with
      | [_], _, heq => exact hrest x (d :: t) (List.cons.inj heq).2
      | a :: y :: s', _, heq =>
        have hy := hs y (by simp)
        have hyx : y = x := (List.cons.inj (List.cons.inj heq).2).1
        rw [← hyx]
        exact ⟨ne_of_digit hy 120 (by decide), ne_of_digit hy 88 (by decide)⟩
    rw [if_neg fun h => hx h.2.1]
    exact heq.symm
  · rfl

/-- **Digits are read as their number**, up to the greatest `int64`. -/
theorem strtoll_numeral {rest : CString} {n : ℕ} {ws : CString} (h : numeral base s = some n)
    (hws : ∀ b ∈ ws, isSpace b = true)
    (hrest : ∀ b t, rest = b :: t → digit base b = none ∧ b ≠ 120 ∧ b ≠ 88) :
    strtoll base (ws ++ (s ++ rest)) = (min n llongMax : ℕ) := by
  obtain ⟨hne, hs, hn⟩ := numeral_eq_some.mp h
  have hmag : magnitude base (s ++ rest) = n := by
    rw [magnitude, skipBasePrefix_eq hne hs fun b t hb => (hrest b t hb).2,
      digits_append hs fun b t hb => (hrest b t hb).1, hn]
  rw [strtoll, dropWhile_append_of_pos hws]
  cases s with
  | nil => exact absurd rfl hne
  | cons b s =>
    have hb := hs b mem_cons_self
    have hdrop : ((b :: s) ++ rest).dropWhile isSpace = b :: (s ++ rest) := by
      rw [cons_append, dropWhile_cons_of_neg (by simp [isSpace_of_digit hb])]
    rw [hdrop]
    split
    · next t heq => exact absurd (List.cons.inj heq).1 (ne_of_digit hb 45 (by decide))
    · next t heq => exact absurd (List.cons.inj heq).1 (ne_of_digit hb 43 (by decide))
    · rw [← cons_append, hmag]

end PgColumnar.ObjStore
