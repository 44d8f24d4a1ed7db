import PgColumnar.Encoding.Basic

/-!
# Reading one value

The reader takes the values of a stream one after another: it builds a value
(`PgColumnarDecodeValueByLen`) or steps past it (`pgcolumnar_skip_value`), and checks
either way that the value ends before the stream does.  The writer appends the value's own
bytes (`PgColumnarEncodeValueByLen`), so a value is the byte string it is stored as.  The
same two functions store the bounds of a zone map.

## Main definitions

* `decodeValue` — one value at a cursor.

## Main results

* `decodeValue_append` — a stored value is read back.
-/

namespace PgColumnar
namespace Encoding

open Bytes List

/-- `PgColumnarVarSizeAnyUnalignedBounded`. -/
def varSizeAnyUnalignedBounded (bs : List Byte) : Except Fault ℕ :=
  if bs = [] then
    .error (.corrupt "pgcolumnar: varlena value starts at or past the value stream end")
  else if (bs.getD 0 0).toNat = 1 then
    .error (.corrupt "pgcolumnar: external TOAST pointer in a native value stream")
  else if (bs.getD 0 0).toNat % 2 = 0 ∧ bs.length < 4 then
    .error (.corrupt "pgcolumnar: varlena header runs past the value stream end")
  else
    let len := varSizeAnyUnaligned bs
    if len < 1 ∨ bs.length < len then
      .error (.corrupt "pgcolumnar: varlena value length runs past the value stream end")
    else .ok len

/-- The number of bytes that the cursor moves over. -/
def storedLen (att : Attribute) (bs : List Byte) : Except Fault ℕ :=
  if att.attbyval = true ∨ 0 < att.attlen then
    if bs.length < att.attlen.toNat then
      .error (.corrupt "pgcolumnar: fixed-length value runs past the value stream end")
    else .ok att.attlen.toNat
  else varSizeAnyUnalignedBounded bs

/-- `PgColumnarDecodeValueByLen`: the value at the cursor, and the cursor after it. -/
def decodeValue (att : Attribute) (bs : List Byte) : Except Fault (List Byte × List Byte) :=
  (storedLen att bs).map fun len => (bs.take len, bs.drop len)

/-- A value as the writer stores it: flattened, so never a TOAST pointer.  A type that is
passed by value has a positive length. -/
structure IsStored (att : Attribute) (v : List Byte) : Prop where
  value : IsValue att v
  byval : att.attbyval = true → 0 < att.attlen
  flat : att.attlen = -1 → (v.getD 0 0).toNat ≠ 1

variable {v : List Byte}

theorem IsVarlena.bounded (hv : IsVarlena v) (hflat : (v.getD 0 0).toNat ≠ 1)
    (rest : List Byte) : varSizeAnyUnalignedBounded (v ++ rest) = .ok v.length := by
  have hpos := varHeaderLen_pos v
  have hlen := hv.1
  have hne : v ++ rest ≠ [] := by
    intro hnil
    have hzero := congrArg List.length (append_eq_nil_iff.mp hnil).1
    rw [length_nil] at hzero
    omega
  have h0 : (v ++ rest).getD 0 0 = v.getD 0 0 := by
    simp [getD_eq_getElem?_getD, getElem?_append_left (show 0 < v.length by omega)]
  have hhead : ¬ ((v.getD 0 0).toNat % 2 = 0 ∧ (v ++ rest).length < 4) := by
    intro h
    unfold varHeaderLen at hlen
    rw [if_neg hflat, if_neg (by omega)] at hlen
    have := h.2
    rw [length_append] at this
    omega
  unfold varSizeAnyUnalignedBounded
  rw [if_neg hne, h0, if_neg hflat, if_neg hhead, varSizeAnyUnaligned_append hv]
  rw [if_neg]
  rw [length_append]
  omega

theorem IsStored.storedLen {att : Attribute} (hv : IsStored att v)
    (rest : List Byte) : storedLen att (v ++ rest) = .ok v.length := by
  unfold Encoding.storedLen
  rcases hv.value with ⟨hpos, hlen⟩ | ⟨hneg, hvar⟩
  · rw [if_pos (.inr hpos), if_neg, hlen]
    rw [length_append, hlen]
    omega
  · rw [if_neg, hvar.bounded (hv.flat hneg)]
    rintro (hby | hpos)
    · have := hv.byval hby
      omega
    · omega

/-- A stored value is read back, whatever follows it. -/
theorem decodeValue_append {att : Attribute} (hv : IsStored att v)
    (rest : List Byte) : decodeValue att (v ++ rest) = .ok (v, rest) := by
  unfold decodeValue
  rw [hv.storedLen]
  show Except.ok ((v ++ rest).take v.length, (v ++ rest).drop v.length) = _
  rw [take_left, drop_left]

theorem IsStored.ne_nil {att : Attribute} (hv : IsStored att v) : v ≠ [] := by
  rintro rfl
  rcases hv.value with ⟨hpos, hlen⟩ | ⟨_, hvar⟩
  · simp at hlen
    omega
  · have := varHeaderLen_pos []
    have := hvar.1
    simp at this
    omega

/-- How single values of a type are stored, and read back. -/
structure ValueCodec (α : Type*) where
  encode : α → List Byte
  decode : List Byte → Except Fault α
  decode_encode : ∀ v, decode (encode v) = .ok v
  encode_ne_nil : ∀ v, encode v ≠ []

end Encoding
end PgColumnar
