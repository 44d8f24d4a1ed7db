import PgColumnar.Lib.Bytes

/-!
# Value streams and the shared vocabulary of the encodings

A column chunk is a raw value stream: the concatenation of its values, each
`attlen` bytes long for a fixed-width attribute or a self-delimiting varlena when
`attlen` is `-1`.  The encodings transform that byte string and the decoders
undo the transform or raise the corruption error.  Sizes are natural numbers: an
allocation that fails raises an error of its own and stores nothing.

## Main definitions

* `Attribute`, `EncodingType` — a column's storage, and the codes of the encodings.
* `WellFormedStream` — the streams that the writer hands over.
-/

namespace PgColumnar
namespace Encoding

open Bytes List

/-- `uint64`, with its wrapping arithmetic. -/
abbrev Word := BitVec 64

/-- The ways a decode (or the table parse inside an encode) can fail. -/
inductive Fault where
  /-- `DECODE_CORRUPT(msg)`. -/
  | corrupt (msg : String)
  /-- `unknown value encoding type %d`. -/
  | unknownEncoding (code : ℤ)
  /-- A read outside the buffer it is made from. -/
  | outOfBounds
  /-- A probe loop that never meets an empty slot. -/
  | diverges
deriving DecidableEq, Repr

/-- The type OIDs `FLOAT4OID` and `FLOAT8OID`. -/
def float4Oid : ℕ := 700
def float8Oid : ℕ := 701

/-- The fields of `Form_pg_attribute` the encodings read.  The catalog fixes the
length of the two float types. -/
structure Attribute where
  attlen : ℤ
  attbyval : Bool
  atttypid : ℕ
  float4_len : atttypid = float4Oid → attlen = 4
  float8_len : atttypid = float8Oid → attlen = 8

/-- An `int4` column. -/
def int4Attribute : Attribute := ⟨4, true, 23, by decide, by decide⟩

/-- `COLUMNAR_ENCODING_*`. -/
inductive EncodingType where
  | none | rle | for | delta | gorilla | dod | dict | alp | fsst
deriving DecidableEq, Repr

/-- The stored code of an encoding. -/
def EncodingType.code : EncodingType → ℤ
  | .none => 0
  | .rle => 1
  | .for => 2
  | .delta => 3
  | .gorilla => 4
  | .dod => 5
  | .dict => 6
  | .alp => 7
  | .fsst => 8

/-- The encoding a stored code names. -/
def EncodingType.ofCode (c : ℤ) : Option EncodingType :=
  [.none, .rle, .for, .delta, .gorilla, .dod, .dict, .alp, .fsst].find? (·.code == c)

@[simp] theorem EncodingType.ofCode_code (t : EncodingType) : ofCode t.code = some t := by
  cases t <;> rfl

/-- `attlen` is one of the four widths a machine integer has. -/
def IntWidth (w : ℕ) : Prop := w = 1 ∨ w = 2 ∨ w = 4 ∨ w = 8

instance (w : ℕ) : Decidable (IntWidth w) := inferInstanceAs (Decidable (_ ∨ _))

theorem IntWidth.le {w : ℕ} (h : IntWidth w) : w ≤ 8 := by
  rcases h with rfl | rfl | rfl | rfl <;> omega

/-- `is_packable_int`. -/
def isPackableInt (att : Attribute) : Bool :=
  att.attbyval && att.atttypid != float4Oid && att.atttypid != float8Oid &&
    (att.attlen == 1 || att.attlen == 2 || att.attlen == 4 || att.attlen == 8)

/-- `is_gorilla_float`. -/
def isGorillaFloat (att : Attribute) : Bool :=
  att.attbyval && (att.atttypid == float4Oid || att.atttypid == float8Oid)

variable {att : Attribute}

theorem intWidth_of_isPackableInt (h : isPackableInt att = true) : IntWidth att.attlen.toNat := by
  simp only [isPackableInt, Bool.and_eq_true, Bool.or_eq_true, beq_iff_eq] at h
  unfold IntWidth
  omega

theorem attlen_of_isGorillaFloat (h : isGorillaFloat att = true) :
    att.attlen = 4 ∨ att.attlen = 8 := by
  simp only [isGorillaFloat, Bool.and_eq_true, Bool.or_eq_true, beq_iff_eq] at h
  rcases h.2 with h | h
  · exact Or.inl (att.float4_len h)
  · exact Or.inr (att.float8_len h)

/-! ### Bounded reads -/

/-- One byte of a buffer. -/
def readByte (bs : List Byte) (i : ℕ) : Except Fault Byte :=
  match bs[i]? with
  | some b => .ok b
  | none => .error .outOfBounds

/-- A `memcpy` of `len` bytes from offset `pos` of a buffer. -/
def readBytes (bs : List Byte) (pos len : ℕ) : Except Fault (List Byte) :=
  match slice bs pos len with
  | some v => .ok v
  | none => .error .outOfBounds

variable {bs : List Byte}

theorem readByte_eq {i : ℕ} (h : i < bs.length) : readByte bs i = .ok (bs.getD i 0) := by
  simp [readByte, getElem?_eq_getElem h]

theorem readBytes_eq {pos len : ℕ} (h : pos + len ≤ bs.length) :
    readBytes bs pos len = .ok ((bs.drop pos).take len) := by
  simp [readBytes, slice_eq_some h]

/-- A loop whose every iteration succeeds. -/
theorem mapM_eq_ok {α β : Type} {f : α → Except Fault β} {g : α → β} {l : List α}
    (h : ∀ a ∈ l, f a = .ok (g a)) : l.mapM f = .ok (l.map g) := by
  induction l with
  | nil => rfl
  | cons a l ih =>
    rw [mapM_cons, h a mem_cons_self, ih fun b hb => h b (mem_cons_of_mem a hb)]
    rfl

/-! ### Fixed-width values -/

/-- `load_uint`: the low bytes of a word, from the value's own bytes. -/
def loadUint (bs : List Byte) : Word := BitVec.ofNat 64 (leNat bs)

/-- `store_uint`. -/
def storeUint (v : Word) (w : ℕ) : List Byte := leBytes w v.toNat

@[simp] theorem length_storeUint (v : Word) (w : ℕ) : (storeUint v w).length = w :=
  length_leBytes w v.toNat

theorem toNat_loadUint (h : bs.length ≤ 8) : (loadUint bs).toNat = leNat bs := by
  rw [loadUint, BitVec.toNat_ofNat, Nat.mod_eq_of_lt]
  exact (leNat_lt bs).trans_le ((Nat.pow_le_pow_right (by norm_num) h).trans (by norm_num))

theorem storeUint_loadUint (h : bs.length ≤ 8) : storeUint (loadUint bs) bs.length = bs := by
  rw [storeUint, toNat_loadUint h, leBytes_leNat]

theorem loadUint_storeUint_eight (v : Word) : loadUint (storeUint v 8) = v := by
  apply BitVec.eq_of_toNat_eq
  rw [toNat_loadUint (by simp), storeUint, leNat_leBytes_of_lt (by simpa using v.isLt)]

/-- The shift loop of `bits_needed`, run at most `fuel` times. -/
def bitsLoop : ℕ → ℕ → ℕ
  | 0, _ => 0
  | fuel + 1, m => if m = 0 then 0 else bitsLoop fuel (m / 2) + 1

/-- `bits_needed`: the number of bits needed to represent `maxval`. -/
def bitsNeeded (maxval : Word) : ℕ := bitsLoop 64 maxval.toNat

theorem bitsLoop_le (fuel m : ℕ) : bitsLoop fuel m ≤ fuel := by
  induction fuel generalizing m with
  | zero => simp [bitsLoop]
  | succ fuel ih =>
    rw [bitsLoop]
    split
    · omega
    · exact Nat.succ_le_succ (ih _)

theorem lt_two_pow_bitsLoop {fuel m : ℕ} (h : m < 2 ^ fuel) : m < 2 ^ bitsLoop fuel m := by
  induction fuel generalizing m with
  | zero => simpa [bitsLoop] using h
  | succ fuel ih =>
    rw [bitsLoop]
    split
    · simp_all
    · have := ih (m := m / 2) (by rw [pow_succ] at h; omega)
      rw [pow_succ]
      omega

theorem bitsNeeded_le (v : Word) : bitsNeeded v ≤ 64 := bitsLoop_le 64 _

/-- A value that a maximum bounds fits the width of the maximum. -/
theorem toNat_lt_two_pow_bitsNeeded {v m : Word} (h : v ≤ m) : v.toNat < 2 ^ bitsNeeded m :=
  (BitVec.le_def.mp h).trans_lt (lt_two_pow_bitsLoop m.isLt)

/-! ### The values of a stream -/

/-- `VARHDRSZ_EXTERNAL + VARTAG_SIZE(tag)`: the size of a TOAST pointer.  Tags `1`
to `3` hold one memory pointer, tag `18` an on-disk `varatt_external`. -/
def varSizeExternal (tag : ℕ) : ℕ :=
  if tag = 1 ∨ tag = 2 ∨ tag = 3 then 2 + 8 else if tag = 18 then 2 + 16 else 2

/-- `PgColumnarVarSizeAnyUnaligned` on the bytes that start at the value: a header
byte `1` is a TOAST pointer, any other odd header byte carries its own length, and
an even one begins a four-byte length. -/
def varSizeAnyUnaligned (bs : List Byte) : ℕ :=
  let h := (bs.getD 0 0).toNat
  if h = 1 then varSizeExternal (bs.getD 1 0).toNat
  else if h % 2 = 1 then h / 2
  else leNat (bs.take 4) / 4 % 2 ^ 30

/-- The number of bytes the size of a varlena is read from. -/
def varHeaderLen (bs : List Byte) : ℕ :=
  let h := (bs.getD 0 0).toNat
  if h = 1 then 2 else if h % 2 = 1 then 1 else 4

/-- One complete varlena value: its header is there and names its length. -/
def IsVarlena (v : List Byte) : Prop :=
  varHeaderLen v ≤ v.length ∧ varSizeAnyUnaligned v = v.length

instance (v : List Byte) : Decidable (IsVarlena v) := inferInstanceAs (Decidable (_ ∧ _))

/-- The length of the value that starts at the head of `bs`. -/
def valueLen (att : Attribute) (bs : List Byte) : ℕ :=
  if 0 < att.attlen then att.attlen.toNat else varSizeAnyUnaligned bs

/-- The first `n` values of a stream, as the encoders step through it. -/
def splitValues (att : Attribute) : ℕ → List Byte → List (List Byte)
  | 0, _ => []
  | n + 1, bs => bs.take (valueLen att bs) :: splitValues att n (bs.drop (valueLen att bs))

/-- One value of the attribute's type. -/
def IsValue (att : Attribute) (v : List Byte) : Prop :=
  (0 < att.attlen ∧ v.length = att.attlen.toNat) ∨ (att.attlen = -1 ∧ IsVarlena v)

/-- A raw value stream of `n` values: `n * attlen` bytes for a fixed width, a
concatenation of `n` varlenas otherwise; its length is a `uint32`. -/
structure WellFormedStream (att : Attribute) (n : ℕ) (raw : List Byte) : Prop where
  shape : (0 < att.attlen ∧ raw.length = n * att.attlen.toNat) ∨
    (att.attlen = -1 ∧ ∃ vals : List (List Byte),
      vals.length = n ∧ (∀ v ∈ vals, IsVarlena v) ∧ raw = vals.flatten)
  len_lt : raw.length < 2 ^ 32

theorem varHeaderLen_pos (bs : List Byte) : 0 < varHeaderLen bs := by
  unfold varHeaderLen
  dsimp only
  split_ifs <;> omega

/-- The size of a varlena does not depend on what follows it. -/
theorem varSizeAnyUnaligned_append {v : List Byte} (hv : IsVarlena v) (rest : List Byte) :
    varSizeAnyUnaligned (v ++ rest) = v.length := by
  obtain ⟨hlen, hsize⟩ := hv
  have hpos := varHeaderLen_pos v
  have h0 : (v ++ rest).getD 0 0 = v.getD 0 0 := by
    simp [getD_eq_getElem?_getD, getElem?_append_left (show 0 < v.length by omega)]
  rw [← hsize]
  unfold varSizeAnyUnaligned varHeaderLen at *
  dsimp only at *
  rw [h0]
  split_ifs at * with h1 h2
  · have : (v ++ rest).getD 1 0 = v.getD 1 0 := by
      simp [getD_eq_getElem?_getD, getElem?_append_left (show 1 < v.length by omega)]
    rw [this]
  · rfl
  · rw [take_append_of_le_length hlen]

theorem valueLen_append {v : List Byte} (hv : IsValue att v)
    (rest : List Byte) : valueLen att (v ++ rest) = v.length := by
  unfold valueLen
  rcases hv with ⟨hpos, hlen⟩ | ⟨hneg, hvar⟩
  · rw [if_pos hpos, hlen]
  · rw [if_neg (by omega), varSizeAnyUnaligned_append hvar]

/-- Stepping through a concatenation of values finds the values. -/
theorem splitValues_flatten {vals : List (List Byte)}
    (h : ∀ v ∈ vals, IsValue att v) : splitValues att vals.length vals.flatten = vals := by
  induction vals with
  | nil => rfl
  | cons v vals ih =>
    have hv := valueLen_append (h v mem_cons_self) vals.flatten
    rw [length_cons, flatten_cons, splitValues, hv, take_left, drop_left,
      ih fun u hu => h u (mem_cons_of_mem v hu)]

/-- A byte string of `n * w` bytes is a concatenation of `n` pieces of `w` bytes. -/
theorem exists_flatten_of_length {w n : ℕ} {raw : List Byte} (h : raw.length = n * w) :
    ∃ vals : List (List Byte), vals.length = n ∧ (∀ v ∈ vals, v.length = w) ∧
      raw = vals.flatten := by
  induction n generalizing raw with
  | zero => exact ⟨[], rfl, by simp, by simpa using h⟩
  | succ n ih =>
    rw [Nat.succ_mul] at h
    have hdrop : (raw.drop w).length = n * w := by
      rw [length_drop]
      omega
    obtain ⟨vals, hn, hw, hraw⟩ := ih hdrop
    refine ⟨raw.take w :: vals, by simp [hn], ?_, ?_⟩
    · refine forall_mem_cons.mpr ⟨?_, hw⟩
      rw [length_take]
      omega
    · rw [flatten_cons, ← hraw, take_append_drop]

/-- Every well-formed stream is the concatenation of the values the encoders see. -/
theorem WellFormedStream.exists_values {n : ℕ} {raw : List Byte} (h : WellFormedStream att n raw) :
    ∃ vals : List (List Byte), vals.length = n ∧ (∀ v ∈ vals, IsValue att v) ∧
      raw = vals.flatten ∧ splitValues att n raw = vals := by
  rcases h.shape with ⟨hpos, hlen⟩ | ⟨hneg, vals, hn, hv, hraw⟩
  · obtain ⟨vals, hn, hw, hraw⟩ := exists_flatten_of_length hlen
    have hval : ∀ v ∈ vals, IsValue att v := fun v hv => Or.inl ⟨hpos, hw v hv⟩
    refine ⟨vals, hn, hval, hraw, ?_⟩
    rw [← hn, hraw, splitValues_flatten hval]
  · have hval : ∀ v ∈ vals, IsValue att v := fun v hv' => Or.inr ⟨hneg, hv v hv'⟩
    refine ⟨vals, hn, hval, hraw, ?_⟩
    rw [← hn, hraw, splitValues_flatten hval]

end Encoding
end PgColumnar
