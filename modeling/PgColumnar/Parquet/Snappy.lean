import PgColumnar.Lib.Cursor
import PgColumnar.Lib.Varint

/-!
# Snappy pages

A raw Snappy stream is the length of its output, then literals and copies from the output so
far.  `snappyRawUncompress` is the decoder of `columnar_parquet_codec.c`.

## Main definitions

* `decompressSnappy` — the decoder; `Stream` is the format.

## Main results

* `decompressSnappy_exact` — a stream is decoded, and any bytes are safe.
-/

namespace PgColumnar.Parquet.Snappy

open Bytes Cursor List Nat Varint

/-- Why there is no output. -/
inductive Stop
  | refused
  /-- A string buffer of the server would pass its limit. -/
  | raised
  /-- A read outside the input or the output. -/
  | fault
  | running
  deriving DecidableEq

def maxAllocSize : ℕ := 2 ^ 30 - 1

def orFault {α : Type} : Except Fault α → Except Stop α
  | .ok a => .ok a
  | .error _ => .error .fault

/-- `appendBinaryStringInfo` -/
def appendBinary (out bytes : List Byte) : Except Stop (List Byte) :=
  if maxAllocSize ≤ out.length + bytes.length then .error .raised else .ok (out ++ bytes)

/-! ### Elements -/

/-- The length of a literal, and where its bytes start. -/
def literalLength (src : List Byte) (pos tag : ℕ) : Except Stop (ℕ × ℕ) :=
  if tag / 4 + 1 > 60 then
    let nb := tag / 4 - 59
    if pos + nb > src.length then .error .refused
    else do
      let l ← orFault (takeAt src pos nb)
      pure ((leNat l + 1) % 2 ^ 32, pos + nb)
  else .ok (tag / 4 + 1, pos)

/-- The length and the offset of a copy, and where the next element starts. -/
def copyLength (src : List Byte) (pos tag : ℕ) : Except Stop (ℕ × ℕ × ℕ) :=
  if tag % 4 = 1 then
    if pos ≥ src.length then .error .refused
    else do
      let b ← orFault (byteAt src pos)
      pure (tag / 4 % 8 + 4, tag / 32 * 256 + b.toNat, pos + 1)
  else
    let nb := if tag % 4 = 2 then 2 else 4
    if pos + nb > src.length then .error .refused
    else do
      let o ← orFault (takeAt src pos nb)
      pure (tag / 4 + 1, leNat o, pos + nb)

/-- Byte by byte, since a copy may overlap what it writes.  The index is a `uint32`. -/
def copyLoop (offset : ℕ) : ℕ → List Byte → Except Stop (List Byte)
  | 0, out => .ok out
  | len + 1, out => do
    let c ← orFault (byteAt out ((out.length + 2 ^ 32 - offset) % 2 ^ 32))
    let out ← appendBinary out [c]
    copyLoop offset len out

/-- One element: the position behind it and the output with it. -/
def snappyElement (src : List Byte) (pos : ℕ) (out : List Byte) : Except Stop (ℕ × List Byte) := do
  let b ← orFault (byteAt src pos)
  let tag := b.toNat
  if tag % 4 = 0 then do
    let (len, pos) ← literalLength src (pos + 1) tag
    if pos + len > src.length then .error .refused
    else do
      let bytes ← orFault (takeAt src pos len)
      let out ← appendBinary out bytes
      pure (pos + len, out)
  else do
    let (len, offset, pos) ← copyLength src (pos + 1) tag
    if offset = 0 ∨ offset > out.length then .error .refused
    else do
      let out ← copyLoop offset len out
      pure (pos, out)

def elementLoop (src : List Byte) : ℕ → ℕ → List Byte → Except Stop (List Byte)
  | 0, pos, out => if pos < src.length then .error .running else .ok out
  | fuel + 1, pos, out =>
    if pos < src.length then do
      let (pos, out) ← snappyElement src pos out
      elementLoop src fuel pos out
    else .ok out

/-- `snappy_raw_uncompress`, with what the string buffer holds before. -/
def snappyRawUncompress (src out : List Byte) : Except Stop (List Byte) :=
  let preamble := Varint.scan 32 32 src 0 0
  let ulen := preamble.2.1
  if preamble.1 = .overlong then .error .refused
  -- `enlargeStringInfo` takes an `int`
  else if ulen ≥ 2 ^ 31 ∨ maxAllocSize ≤ out.length + ulen then .error .raised
  else do
    let out ← elementLoop src src.length preamble.2.2 out
    if out.length = ulen then pure out else .error .refused

/-- `PgColumnarParquetDecompress` with `PQC_SNAPPY`. -/
def decompressSnappy (src : List Byte) (usize : ℕ) (scratch : List Byte) :
    Except Stop (List Byte) :=
  if src.length > maxAllocSize ∨ usize > maxAllocSize then .error .refused
  else do
    let out ← snappyRawUncompress src scratch
    if out.length = usize then pure out else .error .refused

/-! ### The format -/

inductive Element
  | literal (bytes : List Byte)
  | copy (offset len : ℕ)

/-- The tags of the format: a literal with its length in the tag or in up to four more bytes, and
copies with an offset of eleven bits, two bytes or four. -/
inductive Encodes : Element → List Byte → Prop
  | short {bytes : List Byte} : 1 ≤ bytes.length → bytes.length ≤ 60 →
      Encodes (.literal bytes) (BitVec.ofNat 8 ((bytes.length - 1) * 4) :: bytes)
  | long {nb : ℕ} {bytes : List Byte} : 1 ≤ nb → nb ≤ 4 → 1 ≤ bytes.length →
      bytes.length ≤ 256 ^ nb →
      Encodes (.literal bytes)
        (BitVec.ofNat 8 ((59 + nb) * 4) :: (leBytes nb (bytes.length - 1) ++ bytes))
  | copy1 {offset len : ℕ} : 4 ≤ len → len ≤ 11 → offset < 2048 →
      Encodes (.copy offset len)
        [BitVec.ofNat 8 (offset / 256 * 32 + (len - 4) * 4 + 1), BitVec.ofNat 8 offset]
  | copy2 {offset len : ℕ} : 1 ≤ len → len ≤ 64 → offset < 256 ^ 2 →
      Encodes (.copy offset len) (BitVec.ofNat 8 ((len - 1) * 4 + 2) :: leBytes 2 offset)
  | copy4 {offset len : ℕ} : 1 ≤ len → len ≤ 64 → offset < 256 ^ 4 →
      Encodes (.copy offset len) (BitVec.ofNat 8 ((len - 1) * 4 + 3) :: leBytes 4 offset)

/-- What an element adds to the output.  A copy repeats what lies `offset` bytes back, of the
output it makes itself too. -/
inductive Emits (out : List Byte) : Element → List Byte → Prop
  | literal (bytes : List Byte) : Emits out (.literal bytes) (out ++ bytes)
  | copy {offset : ℕ} {bytes : List Byte} : 1 ≤ offset → offset ≤ out.length →
      (∀ i < bytes.length, (out ++ bytes)[out.length + i]? =
        (out ++ bytes)[out.length + i - offset]?) →
      Emits out (.copy offset bytes.length) (out ++ bytes)

/-- The elements `bytes` take the output `out` to `final`. -/
inductive Stream (final : List Byte) : List Byte → List Byte → Prop
  | nil : Stream final final []
  | cons {out out' bytes rest : List Byte} {e : Element} : Encodes e bytes → Emits out e out' →
      Stream final out' rest → Stream final out (bytes ++ rest)

def Legal (src s : List Byte) : Prop :=
  ∃ preamble elements, src = preamble ++ elements ∧ Varint.Encodes preamble s.length ∧
    preamble.length ≤ 5 ∧ Stream s [] elements

variable {src out bytes bs : List Byte} {pos : ℕ}

/-! ### What an element does -/

theorem appendBinary_eq (h : out.length + bytes.length < maxAllocSize) :
    appendBinary out bytes = .ok (out ++ bytes) := if_neg (not_le.mpr h)

variable {offset : ℕ}

theorem copyLoop_eq (hpos : 1 ≤ offset) (hle : offset ≤ out.length) (hcopy : ∀ i < bytes.length,
      (out ++ bytes)[out.length + i]? = (out ++ bytes)[out.length + i - offset]?)
    (hlen : out.length + bytes.length < maxAllocSize) :
    copyLoop offset bytes.length out = .ok (out ++ bytes) := by
  induction bytes generalizing out with
  | nil => simp [copyLoop]
  | cons c rest ih =>
    rw [length_cons] at hlen
    have hmax : maxAllocSize < 2 ^ 32 := by decide
    have hindex : (out.length + 2 ^ 32 - offset) % 2 ^ 32 = out.length - offset := by omega
    -- the byte `offset` back is in the output already
    have hfirst := hcopy 0 (by simp)
    rw [Nat.add_zero, getElem?_append_right le_rfl, Nat.sub_self,
      getElem?_append_left (by omega)] at hfirst
    have hbyte : byteAt out (out.length - offset) = .ok c := by
      rw [byteAt, ← hfirst]
      rfl
    have hsnoc : (out ++ [c]).length = out.length + 1 := by simp
    have hnext : ∀ i < rest.length, (out ++ [c] ++ rest)[(out ++ [c]).length + i]? =
        (out ++ [c] ++ rest)[(out ++ [c]).length + i - offset]? := by
      intro i hi
      rw [append_assoc, singleton_append, hsnoc,
        show out.length + 1 + i = out.length + (i + 1) by omega]
      exact hcopy (i + 1) (by simpa using hi)
    rw [length_cons, copyLoop, hindex, hbyte]
    dsimp only [orFault, bind, Except.bind]
    rw [appendBinary_eq (by rw [length_singleton]; omega)]
    dsimp only
    rw [ih (by omega) hnext (by omega), append_assoc, singleton_append]

variable {e : Element} {out' : List Byte}

theorem Emits.length_le (h : Emits out e out') : out.length ≤ out'.length := by
  cases h <;> simp

theorem Encodes.length_pos (h : Encodes e bs) : 0 < bs.length := by
  cases h <;> simp

theorem snappyElement_literal {tag : Byte} {p : ℕ} (htag : At src pos [tag])
    (htype : tag.toNat % 4 = 0)
    (hlength : literalLength src (pos + 1) tag.toNat = .ok (bytes.length, p))
    (hbytes : At src p bytes) (hlen : out.length + bytes.length < maxAllocSize) :
    snappyElement src pos out = .ok (p + bytes.length, out ++ bytes) := by
  have hroom : ¬ p + bytes.length > src.length := not_lt.mpr hbytes.le
  rw [snappyElement, byteAt_of_at htag]
  dsimp only [orFault, bind, Except.bind]
  rw [if_pos htype, hlength]
  dsimp only
  rw [if_neg hroom, takeAt_of_at hbytes]
  dsimp only
  rw [appendBinary_eq hlen]
  rfl

theorem snappyElement_copy {tag : Byte} {p : ℕ} (htag : At src pos [tag])
    (htype : tag.toNat % 4 ≠ 0)
    (hlength : copyLength src (pos + 1) tag.toNat = .ok (bytes.length, offset, p))
    (hpos : 1 ≤ offset) (hle : offset ≤ out.length)
    (hcopy : ∀ i < bytes.length,
      (out ++ bytes)[out.length + i]? = (out ++ bytes)[out.length + i - offset]?)
    (hlen : out.length + bytes.length < maxAllocSize) :
    snappyElement src pos out = .ok (p, out ++ bytes) := by
  have hoffset : ¬ (offset = 0 ∨ offset > out.length) := by omega
  rw [snappyElement, byteAt_of_at htag]
  dsimp only [orFault, bind, Except.bind]
  rw [if_neg htype, hlength]
  dsimp only
  rw [if_neg hoffset, copyLoop_eq hpos hle hcopy hlen]
  rfl

theorem copyLength_bytes {tag nb : ℕ} (hone : tag % 4 ≠ 1)
    (hnb : (if tag % 4 = 2 then 2 else 4) = nb) (hoff : offset < 256 ^ nb)
    (hat : At src pos (leBytes nb offset)) :
    copyLength src pos tag = .ok (tag / 4 + 1, offset, pos + nb) := by
  have hroom := hat.le
  have htake := takeAt_of_at hat
  rw [length_leBytes] at hroom htake
  rw [copyLength, if_neg hone]
  rw [hnb, if_neg (not_lt.mpr hroom), htake]
  dsimp only [orFault, bind, Except.bind, pure, Except.pure]
  rw [leNat_leBytes_of_lt hoff]

theorem snappyElement_of_encodes (h : Encodes e bs)
    (hemits : Emits out e out') (hat : At src pos bs) (hlen : out'.length < maxAllocSize) :
    snappyElement src pos out = .ok (pos + bs.length, out') := by
  have hmax : maxAllocSize < 2 ^ 32 := by decide
  -- the low bits of the tag tell the kind of element
  cases h with
  | @short bytes hpos hle =>
    cases hemits
    obtain ⟨htag, hbytes⟩ := at_cons.mp hat
    have hnum : (BitVec.ofNat 8 ((bytes.length - 1) * 4)).toNat = (bytes.length - 1) * 4 := by
      rw [BitVec.toNat_ofNat]
      omega
    rw [length_append] at hlen
    rw [snappyElement_literal htag (by omega) ?_ hbytes hlen, length_cons]
    · simp [add_assoc, add_comm 1]
    · rw [hnum, literalLength, if_neg (by omega),
        show (bytes.length - 1) * 4 / 4 + 1 = bytes.length by omega]
  | @long nb bytes hnb hnb' hpos hle =>
    cases hemits
    obtain ⟨htag, hrest⟩ := at_cons.mp hat
    obtain ⟨hl, hbytes⟩ := at_append.mp hrest
    have hroom := hl.le
    have htake := takeAt_of_at hl
    rw [length_leBytes] at hroom hbytes htake
    rw [length_append] at hlen
    have hnum : (BitVec.ofNat 8 ((59 + nb) * 4)).toNat = (59 + nb) * 4 := by
      rw [BitVec.toNat_ofNat]
      omega
    -- the length is stored less one, in as many bytes as the tag says
    have hvalue : (leNat (leBytes nb (bytes.length - 1)) + 1) % 2 ^ 32 = bytes.length := by
      rw [leNat_leBytes_of_lt (by omega)]
      omega
    rw [snappyElement_literal htag (by omega) ?_ hbytes hlen, length_cons, length_append,
      length_leBytes]
    · simp [add_assoc, add_comm 1]
    · rw [hnum, literalLength, if_pos (by omega)]
      rw [show (59 + nb) * 4 / 4 - 59 = nb by omega, if_neg (not_lt.mpr hroom), htake]
      dsimp only [orFault, bind, Except.bind, pure, Except.pure]
      rw [hvalue]
  | @copy1 offset len hlow hhigh hoff =>
    obtain ⟨htag, hrest⟩ := at_cons.mp hat
    have hroom := hrest.le
    have hnum : (BitVec.ofNat 8 (offset / 256 * 32 + (len - 4) * 4 + 1)).toNat =
        offset / 256 * 32 + (len - 4) * 4 + 1 := by
      rw [BitVec.toNat_ofNat]
      omega
    have hlength : copyLength src (pos + 1) (offset / 256 * 32 + (len - 4) * 4 + 1) =
        .ok (len, offset, pos + 2) := by
      rw [copyLength, if_pos (by omega), if_neg (by simp at hroom; omega), byteAt_of_at hrest]
      dsimp only [orFault, bind, Except.bind, pure, Except.pure]
      rw [BitVec.toNat_ofNat, show (offset / 256 * 32 + (len - 4) * 4 + 1) / 4 % 8 + 4 =
        len by omega,
        show (offset / 256 * 32 + (len - 4) * 4 + 1) / 32 * 256 + offset % 2 ^ 8 = offset by omega]
    cases hemits with
    | copy hone hle hcopy =>
      rw [length_append] at hlen
      rw [← hnum] at hlength
      exact snappyElement_copy htag (by omega) hlength hone hle hcopy hlen
  | @copy2 offset len hlow hhigh hoff =>
    obtain ⟨htag, hrest⟩ := at_cons.mp hat
    have hnum : (BitVec.ofNat 8 ((len - 1) * 4 + 2)).toNat = (len - 1) * 4 + 2 := by
      rw [BitVec.toNat_ofNat]
      omega
    have hlength : copyLength src (pos + 1) ((len - 1) * 4 + 2) =
        .ok (((len - 1) * 4 + 2) / 4 + 1, offset, pos + 1 + 2) :=
      copyLength_bytes (by omega) (if_pos (by omega)) hoff hrest
    rw [show ((len - 1) * 4 + 2) / 4 + 1 = len by omega, ← hnum] at hlength
    cases hemits with
    | copy hone hle hcopy =>
      rw [length_append] at hlen
      exact snappyElement_copy htag (by omega) hlength hone hle hcopy hlen
  | @copy4 offset len hlow hhigh hoff =>
    obtain ⟨htag, hrest⟩ := at_cons.mp hat
    have hnum : (BitVec.ofNat 8 ((len - 1) * 4 + 3)).toNat = (len - 1) * 4 + 3 := by
      rw [BitVec.toNat_ofNat]
      omega
    have hlength : copyLength src (pos + 1) ((len - 1) * 4 + 3) =
        .ok (((len - 1) * 4 + 3) / 4 + 1, offset, pos + 1 + 4) :=
      copyLength_bytes (by omega) (if_neg (by omega)) hoff hrest
    rw [show ((len - 1) * 4 + 3) / 4 + 1 = len by omega, ← hnum] at hlength
    cases hemits with
    | copy hone hle hcopy =>
      rw [length_append] at hlen
      exact snappyElement_copy htag (by omega) hlength hone hle hcopy hlen

/-! ### Any bytes -/

/-- An end that is neither a read outside a buffer nor a loop cut short. -/
def Stop.Clean (e : Stop) : Prop := e = .refused ∨ e = .raised

theorem copyLoop_safe (hpos : 1 ≤ offset) (hle : offset ≤ out.length)
    (hlen : out.length < maxAllocSize) (len : ℕ) :
    (∃ e, copyLoop offset len out = .error e ∧ e.Clean) ∨
      ∃ out', copyLoop offset len out = .ok out' ∧ out'.length < maxAllocSize := by
  induction len generalizing out with
  | zero => exact .inr ⟨out, rfl, hlen⟩
  | succ len ih =>
    have hmax : maxAllocSize < 2 ^ 32 := by decide
    obtain ⟨c, hbyte⟩ := byteAt_ok (show (out.length + 2 ^ 32 - offset) % 2 ^ 32 <
      out.length by omega)
    rw [copyLoop, hbyte]
    dsimp only [orFault, bind, Except.bind]
    by_cases hroom : out.length + 1 < maxAllocSize
    · rw [appendBinary_eq hroom]
      exact ih (by simp; omega) (by simpa using hroom)
    · left
      rw [appendBinary, if_pos (by simp; omega)]
      exact ⟨.raised, rfl, .inr rfl⟩

theorem literalLength_safe (hpos : pos ≤ src.length) (tag : ℕ) :
    literalLength src pos tag = .error .refused ∨
      ∃ len p, literalLength src pos tag = .ok (len, p) ∧ pos ≤ p ∧ p ≤ src.length := by
  unfold literalLength
  split
  · dsimp only
    split
    · exact .inl rfl
    · next hroom =>
      obtain ⟨l, htake, -⟩ := takeAt_ok (Nat.le_of_not_lt hroom)
      rw [htake]
      exact .inr ⟨_, _, rfl, Nat.le_add_right _ _, Nat.le_of_not_lt hroom⟩
  · exact .inr ⟨_, _, rfl, le_rfl, hpos⟩

theorem copyLength_safe (src : List Byte) (pos tag : ℕ) : copyLength src pos tag = .error .refused ∨
      ∃ len offset p, copyLength src pos tag = .ok (len, offset, p) ∧ pos ≤ p ∧ p ≤ src.length := by
  unfold copyLength
  split
  · split
    · exact .inl rfl
    · next hroom =>
      obtain ⟨b, hbyte⟩ := byteAt_ok (Nat.lt_of_not_le hroom)
      rw [hbyte]
      exact .inr ⟨_, _, _, rfl, Nat.le_succ _, Nat.lt_of_not_le hroom⟩
  · dsimp only
    generalize (if tag % 4 = 2 then 2 else 4) = nb
    split
    · exact .inl rfl
    · next hroom =>
      obtain ⟨o, htake, -⟩ := takeAt_ok (Nat.le_of_not_lt hroom)
      rw [htake]
      exact .inr ⟨_, _, _, rfl, Nat.le_add_right _ _, Nat.le_of_not_lt hroom⟩

theorem snappyElement_safe (hpos : pos < src.length) (hlen : out.length < maxAllocSize) :
    (∃ e, snappyElement src pos out = .error e ∧ e.Clean) ∨
      ∃ pos' out', snappyElement src pos out = .ok (pos', out') ∧ pos < pos' ∧
        pos' ≤ src.length ∧ out'.length < maxAllocSize := by
  obtain ⟨b, hbyte⟩ := byteAt_ok hpos
  rw [snappyElement, hbyte]
  dsimp only [orFault, bind, Except.bind]
  split
  · rcases literalLength_safe (succ_le_of_lt hpos) b.toNat with h | ⟨len, p, h, hle, hp⟩
    · rw [h]
      exact .inl ⟨.refused, rfl, .inl rfl⟩
    · rw [h]
      dsimp only
      split
      · exact .inl ⟨.refused, rfl, .inl rfl⟩
      · next hroom =>
        obtain ⟨bytes, htake, -, hbytes⟩ := takeAt_ok (Nat.le_of_not_lt hroom)
        rw [htake]
        dsimp only
        by_cases hfits : out.length + bytes.length < maxAllocSize
        · rw [appendBinary_eq hfits]
          exact .inr ⟨_, _, rfl, by omega, by omega, by rwa [length_append]⟩
        · rw [appendBinary, if_pos (Nat.le_of_not_lt hfits)]
          exact .inl ⟨.raised, rfl, .inr rfl⟩
  · rcases copyLength_safe src (pos + 1) b.toNat with h | ⟨len, offset, p, h, hle, hp⟩
    · rw [h]
      exact .inl ⟨.refused, rfl, .inl rfl⟩
    · rw [h]
      dsimp only
      split
      · exact .inl ⟨.refused, rfl, .inl rfl⟩
      · next hoffset =>
        rcases copyLoop_safe (pos_of_ne_zero fun h => hoffset (.inl h)) (by omega) hlen len with
          ⟨e, he, hclean⟩ | ⟨out', ho, hfits⟩
        · rw [he]
          exact .inl ⟨e, rfl, hclean⟩
        · rw [ho]
          exact .inr ⟨_, _, rfl, by omega, hp, hfits⟩

theorem elementLoop_safe {fuel : ℕ} (hfuel : src.length - pos ≤ fuel)
    (hlen : out.length < maxAllocSize) :
    (∃ e, elementLoop src fuel pos out = .error e ∧ e.Clean) ∨
      ∃ out', elementLoop src fuel pos out = .ok out' := by
  induction fuel generalizing pos out with
  | zero => exact .inr ⟨out, if_neg (by omega)⟩
  | succ fuel ih =>
    rw [elementLoop]
    split
    · next hpos =>
      rcases snappyElement_safe hpos hlen with ⟨e, he, hclean⟩ | ⟨pos', out', h, hlt, hle, hlen'⟩
      · rw [he]
        exact .inl ⟨e, rfl, hclean⟩
      · rw [h]
        exact ih (by omega) hlen'
    · exact .inr ⟨out, rfl⟩

/-! ### The whole stream -/

variable {final : List Byte}

theorem Stream.length_le (h : Stream final out bs) : out.length ≤ final.length := by
  induction h with
  | nil => exact le_rfl
  | cons _ hemits _ ih => exact hemits.length_le.trans ih

theorem elementLoop_of_stream (h : Stream final out bs) (hat : At src pos bs)
    (hend : pos + bs.length = src.length) (hlen : final.length < maxAllocSize) {fuel : ℕ}
    (hfuel : bs.length ≤ fuel) : elementLoop src fuel pos out = .ok final := by
  induction h generalizing pos fuel with
  | nil =>
    have hdone : ¬ pos < src.length := by simp at hend; omega
    cases fuel <;> simp [elementLoop, hdone]
  | @cons out out' bytes rest e hencodes hemits hrest ih =>
    have hpos := hencodes.length_pos
    rw [length_append] at hend hfuel
    obtain ⟨fuel, rfl⟩ := exists_eq_succ_of_ne_zero (by omega : fuel ≠ 0)
    obtain ⟨hbytes, hat'⟩ := at_append.mp hat
    rw [elementLoop, if_pos (by omega),
      snappyElement_of_encodes hencodes hemits hbytes (hrest.length_le.trans_lt hlen)]
    exact ih hat' (by omega) (by omega)

/-- **Snappy pages are decoded exactly.**  A stream of `s` gives `s`; any other bytes end without
a read outside the input or the output, and an output has the length of the page header and,
when there is one below `2 ^ 32`, of the preamble. -/
theorem decompressSnappy_exact (src : List Byte) (usize : ℕ) :
    (∀ s, s.length < maxAllocSize → src.length ≤ maxAllocSize → Legal src s →
      decompressSnappy src s.length [] = .ok s) ∧
    (decompressSnappy src usize [] ≠ .error .fault ∧
      decompressSnappy src usize [] ≠ .error .running) ∧
    ∀ out, decompressSnappy src usize [] = .ok out → out.length = usize ∧
      ∀ preamble rest n, src = preamble ++ rest → Varint.Encodes preamble n → n < 2 ^ 32 →
        out.length = n := by
  refine ⟨?_, ?_⟩
  · intro s hs hsrc hlegal
    -- the preamble is read whole, and the loop has a turn for each byte left
    obtain ⟨preamble, elements, rfl, hpre, hfive, hstream⟩ := hlegal
    have hmax : maxAllocSize < 2 ^ 31 := by decide
    have hscan : Varint.scan 32 32 (preamble ++ elements) 0 0 =
        (.done, (0 + 2 ^ 0 * s.length) % 2 ^ 32, preamble.length) :=
      scan_of_encodes (by decide) hpre elements (by decide) (by omega)
    rw [pow_zero, one_mul, zero_add, mod_eq_of_lt (by omega)] at hscan
    have hat : At (preamble ++ elements) preamble.length elements := ⟨preamble, [], by simp, rfl⟩
    have hfuel : elementLoop (preamble ++ elements)
      (preamble ++ elements).length preamble.length [] =
        .ok s := elementLoop_of_stream hstream hat (by simp) hs (by simp)
    have hroom : ¬ (s.length ≥ 2 ^ 31 ∨ maxAllocSize ≤ ([] : List Byte).length + s.length) := by
      rw [length_nil]
      omega
    have hdone : Varint.Status.done ≠ .overlong := by decide
    rw [decompressSnappy, if_neg (by omega), snappyRawUncompress, hscan, if_neg hdone,
      if_neg hroom, hfuel]
    simp [bind, Except.bind, pure, Except.pure]
  · -- the loop ends cleanly, and the two lengths are compared
    have hloop : ∀ ulen : ℕ, ulen < maxAllocSize → ∀ p,
        (∃ e, elementLoop src src.length p [] = .error e ∧ e.Clean) ∨
          ∃ out, elementLoop src src.length p [] = .ok out := by
      intro ulen hulen p
      exact elementLoop_safe (by omega) (by simp; omega)
    have hpreamble : ∀ preamble rest n, src = preamble ++ rest → Varint.Encodes preamble n →
      n < 2 ^ 32 →
        (Varint.scan 32 32 src 0 0).1 ≠ .overlong → (Varint.scan 32 32 src 0 0).2.1 = n := by
      intro preamble rest n hsrc hn hlt hstatus
      subst hsrc
      by_cases hfive : 0 + 7 * (preamble.length - 1) ≤ 32
      · have hscan : Varint.scan 32 32 (preamble ++ rest) 0 0 =
            (.done, (0 + 2 ^ 0 * n) % 2 ^ 32, preamble.length) :=
          scan_of_encodes (by decide) hn rest (by decide) hfive
        rw [hscan, pow_zero, one_mul, zero_add]
        exact mod_eq_of_lt hlt
      · exact absurd (scan_overlong hn rest (by decide) (Nat.lt_of_not_le hfive)) hstatus
    rw [decompressSnappy]
    split
    · simp
    · rw [snappyRawUncompress]
      split
      · simp [bind, Except.bind]
      · next hstatus =>
        split
        · simp [bind, Except.bind]
        · next hroom =>
          rcases hloop (Varint.scan 32 32 src 0 0).2.1 (by simp at hroom; omega)
            (Varint.scan 32 32 src 0 0).2.2 with ⟨e, he, hclean⟩ | ⟨out, hout⟩
          · rw [he]
            rcases hclean with rfl | rfl <;> simp [bind, Except.bind]
          · rw [hout]
            dsimp only [bind, Except.bind, pure, Except.pure]
            by_cases hulen : out.length = (Varint.scan 32 32 src 0 0).2.1
            · rw [if_pos hulen]
              dsimp only
              by_cases husize : out.length = usize
              · rw [if_pos husize]
                refine ⟨by simp, fun out' hout' => ?_⟩
                cases hout'
                exact ⟨husize, fun preamble rest n hsrc hn hlt =>
                  hulen.trans (hpreamble preamble rest n hsrc hn hlt hstatus)⟩
              · rw [if_neg husize]
                simp
            · rw [if_neg hulen]
              simp

/-- `abcabcab`: three literal bytes, and a copy that repeats its own output. -/
theorem decompressSnappy_exact_overlap :
    decompressSnappy [8, 8, 97, 98, 99, 5, 3] 8 [] = .ok [97, 98, 99, 97, 98, 99, 97, 98] := by
  have hlit : Encodes (.literal [97, 98, 99]) [8, 97, 98, 99] := .short (by decide) (by decide)
  have hcopy : Encodes (.copy 3 5) [5, 3] := .copy1 (by decide) (by decide) (by decide)
  have hcopied : ∀ i < ([97, 98, 99, 97, 98] : List Byte).length,
      ([97, 98, 99] ++ [97, 98, 99, 97, 98] : List Byte)[3 + i]? =
        ([97, 98, 99] ++ [97, 98, 99, 97, 98] : List Byte)[3 + i - 3]? := by decide
  have hemits : Emits [97, 98, 99] (.copy 3 5) [97, 98, 99, 97, 98, 99, 97, 98] :=
    .copy (by decide) (by decide) hcopied
  have hlegal : Legal [8, 8, 97, 98, 99, 5, 3] [97, 98, 99, 97, 98, 99, 97, 98] :=
    ⟨[8], [8, 97, 98, 99, 5, 3], rfl, .last 8 (by decide), by decide,
      .cons hlit (.literal _) (.cons hcopy hemits .nil)⟩
  exact (decompressSnappy_exact [8, 8, 97, 98, 99, 5, 3] 8).1 _ (by decide) (by decide) hlegal

theorem stream_oneByteLiterals (final : List Byte) (k : ℕ) :
    Stream (final ++ List.replicate k 0) final (List.replicate (2 * k) 0) := by
  induction k generalizing final with
  | zero => simpa using Stream.nil
  | succ k ih =>
    have hlit : Encodes (.literal [0]) [0, 0] := .short (by decide) (by decide)
    have hnext := ih (final ++ [0])
    rw [append_assoc, singleton_append, ← replicate_succ] at hnext
    have hstream := Stream.cons hlit (.literal _) hnext
    rwa [show 2 * (k + 1) = 2 * k + 1 + 1 by omega]

theorem legal_oneByteLiterals {k : ℕ} (hk : k < 2 ^ 30) :
    Legal (Varint.put k ++ List.replicate (2 * k) 0) ([] ++ List.replicate k 0) := by
  refine ⟨_, _, rfl, ?_, ?_, stream_oneByteLiterals [] k⟩
  · rw [nil_append, length_replicate]
    exact encodes_put (by omega)
  · exact length_put_le_of_lt (by decide) (by omega)

/-- A stream of one-byte literals takes twice its output, and is refused unread. -/
theorem decompressSnappy_refuses_oneByteLiterals : ∃ src s, s.length < maxAllocSize ∧ Legal src s ∧
      decompressSnappy src s.length [] = .error .refused := by
  obtain ⟨k, hk⟩ : ∃ k, k = 2 ^ 29 := ⟨_, rfl⟩
  have hmax : maxAllocSize = 2 ^ 30 - 1 := rfl
  refine ⟨_, _, ?_, legal_oneByteLiterals (k := k) (by omega), if_pos (.inl ?_)⟩
  · rw [nil_append, length_replicate]
    omega
  · have hpos := (encodes_put (show k < 2 ^ 64 by omega)).length_pos
    rw [length_append, length_replicate]
    omega

end PgColumnar.Parquet.Snappy
