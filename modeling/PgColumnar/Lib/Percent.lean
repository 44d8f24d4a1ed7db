import Mathlib.Logic.Function.Iterate
import PgColumnar.Lib.Bytes

/-!
# Percent-encoding

One pass of percent-decoding replaces every `%HH` from left to right.  Decoding again may find
new escapes; a pass that finds none is a fixed point, and any other shortens the string.
-/

namespace Percent

open Bytes List

def hexDigit (b : Byte) : Option ℕ :=
  if 48 ≤ b.toNat ∧ b.toNat ≤ 57 then some (b.toNat - 48)
  else if 97 ≤ b.toNat ∧ b.toNat ≤ 102 then some (b.toNat - 97 + 10)
  else if 65 ≤ b.toNat ∧ b.toNat ≤ 70 then some (b.toNat - 65 + 10)
  else none

def escape (c h l : Byte) : Option Byte :=
  if c = 37 then
    match hexDigit h, hexDigit l with
    | some hi, some lo => some (BitVec.ofNat 8 (hi * 16 + lo))
    | _, _ => none
  else none

def decode : List Byte → List Byte
  | c :: h :: l :: rest =>
    match escape c h l with
    | some b => b :: decode rest
    | none => c :: decode (h :: l :: rest)
  | s => s

theorem decode_eq_or_lt (s : List Byte) : decode s = s ∨ (decode s).length < s.length := by
  induction s using decode.induct with
  | case1 c h l rest b hesc ih =>
    right
    have hle : (decode rest).length ≤ rest.length := by
      obtain ih | ih := ih
      · rw [ih]
      · exact ih.le
    simp only [decode, hesc, length_cons]
    omega
  | case2 c h l rest hesc ih =>
    obtain ih | ih := ih
    · exact .inl (by simp only [decode, hesc, ih])
    · exact .inr (by simp only [decode, hesc, length_cons] at ih ⊢; omega)
  | case3 s hs =>
    left
    match s, hs with
    | [], _ | [_], _ | [_, _], _ => rfl
    | c :: h :: l :: rest, hs => exact absurd rfl (hs c h l rest)

variable {c : Byte}

theorem decode_cons_of_ne (hc : c ≠ 37) (s : List Byte) : decode (c :: s) = c :: decode s := by
  match s with
  | [] => rfl
  | [_] => rfl
  | h :: l :: rest => rw [decode, escape, if_neg hc]

theorem iterate_decode_cons_of_ne (hc : c ≠ 37) (n : ℕ) (s : List Byte) :
    decode^[n] (c :: s) = c :: decode^[n] s := by
  induction n generalizing s with
  | zero => rfl
  | succ n ih =>
    rw [Function.iterate_succ_apply, Function.iterate_succ_apply, decode_cons_of_ne hc, ih]

theorem iterate_decode_of_eq {s : List Byte} (h : decode s = s) (n : ℕ) : decode^[n] s = s :=
  Function.iterate_fixed h n

/-! ### Encoding -/

def hexUpper (d : ℕ) : Byte := BitVec.ofNat 8 (if d < 10 then 48 + d else 55 + d)

def encodeByte (keep : Byte → Bool) (b : Byte) : List Byte :=
  if keep b then [b] else [37, hexUpper (b.toNat / 16), hexUpper (b.toNat % 16)]

def encode (keep : Byte → Bool) (s : List Byte) : List Byte := s.flatMap (encodeByte keep)

theorem hexDigit_hexUpper : ∀ d < 16, hexDigit (hexUpper d) = some d := by decide

theorem decode_escape (b : Byte) (t : List Byte) :
    decode (37 :: hexUpper (b.toNat / 16) :: hexUpper (b.toNat % 16) :: t) = b :: decode t := by
  have hb : b.toNat < 256 := b.isLt
  have hbyte : BitVec.ofNat 8 (b.toNat / 16 * 16 + b.toNat % 16) = b := by
    rw [Nat.div_add_mod', BitVec.ofNat_toNat, BitVec.setWidth_eq]
  have hesc : escape 37 (hexUpper (b.toNat / 16)) (hexUpper (b.toNat % 16)) = some b := by
    rw [escape, if_pos rfl, hexDigit_hexUpper _ (by omega), hexDigit_hexUpper _ (by omega)]
    simp only [hbyte]
  simp only [decode, hesc]

variable {keep : Byte → Bool}

@[simp] theorem encode_nil : encode keep [] = [] := rfl

theorem encode_cons (b : Byte) (s : List Byte) :
    encode keep (b :: s) = encodeByte keep b ++ encode keep s := flatMap_cons

/-- **Decoding finds the encoded bytes again**, whatever stands behind them. -/
theorem decode_encode_append (hkeep : keep 37 = false) (s t : List Byte) :
    decode (encode keep s ++ t) = s ++ decode t := by
  induction s with
  | nil => rfl
  | cons b s ih =>
    rw [encode_cons, append_assoc, encodeByte]
    by_cases hb : keep b = true
    · have hne : b ≠ 37 := by
        intro heq
        rw [heq, hkeep] at hb
        cases hb
      rw [if_pos hb, singleton_append, decode_cons_of_ne hne, ih, cons_append]
    · rw [if_neg hb]
      exact (decode_escape b _).trans (congrArg (b :: ·) ih)

theorem decode_encode (hkeep : keep 37 = false) (s : List Byte) : decode (encode keep s) = s := by
  have hnil : decode [] = [] := rfl
  have := decode_encode_append hkeep s []
  rwa [append_nil, hnil, append_nil] at this

/-- The bytes of an encoded text: those that are kept, the percent sign and hex digits. -/
theorem mem_encode {s : List Byte} (h : c ∈ encode keep s) :
    keep c = true ∨ c = 37 ∨ ∃ d < 16, c = hexUpper d := by
  obtain ⟨b, -, hc⟩ := mem_flatMap.mp h
  have hb : b.toNat < 256 := b.isLt
  rw [encodeByte] at hc
  split at hc
  · next hkeep => exact .inl (mem_singleton.mp hc ▸ hkeep)
  · simp only [mem_cons, not_mem_nil, or_false] at hc
    obtain rfl | rfl | rfl := hc
    · exact .inr (.inl rfl)
    · exact .inr (.inr ⟨b.toNat / 16, by omega, rfl⟩)
    · exact .inr (.inr ⟨b.toNat % 16, by omega, rfl⟩)

/-- A byte that is neither kept nor part of an escape does not occur. -/
theorem notMem_encode (hkeep : keep c = false) (hpct : c ≠ 37)
    (hhex : ∀ d < 16, c ≠ hexUpper d) (s : List Byte) : c ∉ encode keep s := by
  intro h
  obtain h | h | ⟨d, hd, h⟩ := mem_encode h
  · rw [hkeep] at h
    cases h
  · exact hpct h
  · exact hhex d hd h

end Percent
