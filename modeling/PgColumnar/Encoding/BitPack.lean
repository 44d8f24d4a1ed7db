import PgColumnar.Encoding.Basic
import PgColumnar.Lib.Bitmap

/-!
# Bit packing

`bitpack` lays `n` fields of `width` bits one after another, least significant bit
first, by OR-ing at most nine bytes per field into a zeroed buffer; `bitunpack`
reads them back, with a nine-byte window while the window fits and one bit at a
time behind it.  Both are arithmetic on the number the buffer denotes: the packed
buffer is the number with the fields as its base-`2 ^ width` digits, and every
path of the reader returns the digit.

## Main definitions

* `bitpack`, `bitunpack` — the word-at-a-time codec.
* `refBitpack`, `refBitunpack` — the per-bit one.

## Main results

* `bitunpack_bitpack` — unpacking undoes packing.
* `bitpack_eq_reference` — both codecs are the same.
-/

namespace PgColumnar
namespace Encoding

open Bytes List Nat
open BitVec (eq_of_getLsbD_eq getLsbD_ofNat getLsbD_setWidth getLsbD_shiftLeft getLsbD_ushiftRight
  testBit_toNat)

/-- The mask of the low `width` bits. -/
def mask (width : ℕ) : Word := if width = 64 then BitVec.allOnes 64 else (1#64 <<< width) - 1

variable {width : ℕ}

theorem toNat_and_mask (h : width ≤ 64) (v : Word) :
    (v &&& mask width).toNat = v.toNat % 2 ^ width := by
  unfold mask
  split
  · next h64 => rw [BitVec.and_allOnes, h64, mod_eq_of_lt v.isLt]
  · have hlt : 2 ^ width < 2 ^ 64 := Nat.pow_lt_pow_right (by norm_num) (by omega)
    have hpos : 0 < 2 ^ width := by positivity
    have hm : ((1#64 <<< width) - 1).toNat = 2 ^ width - 1 := by
      rw [BitVec.toNat_sub, BitVec.toNat_shiftLeft, shiftLeft_eq,
        show (1#64).toNat = 1 from rfl, show BitVec.toNat (1 : Word) = 1 from rfl, one_mul,
        mod_eq_of_lt hlt]
      omega
    rw [BitVec.toNat_and, hm, and_two_pow_sub_one_eq_mod]

/-! ### Packing -/

/-- The byte at distance `k` from the first byte a field touches: the field shifted
to its bit offset, of which the word `lo` holds the first eight bytes and `hi` the
rest. -/
def packByte (v : Word) (bitoff k : ℕ) : Byte :=
  let lo := v <<< bitoff
  let hi := if bitoff = 0 then 0 else v >>> (64 - bitoff)
  if k < 8 then (lo >>> (8 * k)).setWidth 8 else (hi >>> (8 * (k - 8))).setWidth 8

/-- One iteration of `bitpack`: OR the masked field into the buffer at `bitpos`. -/
def packField (width : ℕ) (buf : List Byte) (bitpos : ℕ) (v : Word) : List Byte :=
  let nb := (bitpos % 8 + width + 7) / 8
  orAt buf (bitpos / 8) ((List.range nb).map (packByte (v &&& mask width) (bitpos % 8)))

/-- The loop of `bitpack` over the values. -/
def packLoop (width : ℕ) : List Byte → ℕ → List Word → List Byte
  | buf, _, [] => buf
  | buf, bitpos, v :: vals => packLoop width (packField width buf bitpos v) (bitpos + width) vals

/-- `bitpack`: the bytes it appends to its output. -/
def bitpack (vals : List Word) (width : ℕ) : List Byte :=
  if width = 0 ∨ vals.length = 0 then []
  else packLoop width (List.replicate ((vals.length * width + 7) / 8) 0) 0 vals

theorem packByte_eq (v : Word) {bitoff k : ℕ} (hoff : bitoff < 8) (hk : k < 9) :
    packByte v bitoff k = BitVec.ofNat 8 (v.toNat * 2 ^ bitoff / 256 ^ k) := by
  apply eq_of_getLsbD_eq
  intro i hi
  have hshift : v.toNat * 2 ^ bitoff / 256 ^ k = v.toNat <<< bitoff / 2 ^ (8 * k) := by
    rw [shiftLeft_eq, two_pow_eight_mul]
  rw [hshift, getLsbD_ofNat, testBit_div_two_pow, testBit_shiftLeft]
  unfold packByte
  by_cases h8 : k < 8
  · have h1 : 8 * k + i < 64 := by omega
    simp only [if_pos h8, getLsbD_setWidth, getLsbD_ushiftRight,
      getLsbD_shiftLeft, hi, h1, add_comm i (8 * k)]
    by_cases h2 : 8 * k + i < bitoff
    · simp [h2, not_le.mpr h2]
    · simp [h2, not_lt.mp h2, testBit_toNat]
  · obtain rfl : k = 8 := by omega
    by_cases h0 : bitoff = 0
    · subst h0
      simp [hi, testBit_toNat]
    · simp only [h8, if_false, h0, getLsbD_setWidth, getLsbD_ushiftRight, hi]
      rw [testBit_toNat, show 64 - bitoff + (8 * (8 - 8) + i) = i + 8 * 8 - bitoff by omega]
      have : bitoff ≤ i + 8 * 8 := by omega
      simp [this]

/-- The bytes of one field are the little-endian bytes of the shifted field. -/
theorem map_packByte (v : Word) {bitoff nb : ℕ} (hoff : bitoff < 8) (hnb : nb ≤ 9) :
    (List.range nb).map (packByte v bitoff) = leBytes nb (v.toNat * 2 ^ bitoff) := by
  rw [leBytes_eq_map]
  apply map_congr_left
  intro k hk
  have := mem_range.mp hk
  exact packByte_eq v hoff (by omega)

@[simp] theorem length_packField (width : ℕ) (buf : List Byte) (bitpos : ℕ) (v : Word) :
    (packField width buf bitpos v).length = buf.length := length_orAt _ _ _

variable {bitpos : ℕ}

/-- Packing a field above everything written so far adds the shifted field. -/
theorem leNat_packField {buf : List Byte} {v : Word} (hw : width ≤ 64)
    (hfit : bitpos + width ≤ 8 * buf.length) (hlow : leNat buf < 2 ^ bitpos) :
    leNat (packField width buf bitpos v) = leNat buf + 2 ^ bitpos * (v.toNat % 2 ^ width) := by
  unfold packField
  dsimp only
  set x := v.toNat % 2 ^ width with hx
  have hxlt : x < 2 ^ width := mod_lt _ (by positivity)
  rw [map_packByte _ (by omega) (by omega), toNat_and_mask hw, ← hx,
    leNat_orAt (by rw [length_leBytes]; omega)]
  have hfits : x * 2 ^ (bitpos % 8) < 256 ^ ((bitpos % 8 + width + 7) / 8) := by
    calc x * 2 ^ (bitpos % 8) < 2 ^ width * 2 ^ (bitpos % 8) :=
          mul_lt_mul_of_pos_right hxlt (by positivity)
      _ = 2 ^ (width + bitpos % 8) := (pow_add _ _ _).symm
      _ ≤ 2 ^ (8 * ((bitpos % 8 + width + 7) / 8)) :=
          Nat.pow_le_pow_right (by norm_num) (by omega)
      _ = 256 ^ ((bitpos % 8 + width + 7) / 8) := two_pow_eight_mul _
  rw [leNat_leBytes_of_lt hfits, shiftLeft_eq, mul_assoc, ← pow_add,
    show bitpos % 8 + 8 * (bitpos / 8) = bitpos by omega, Nat.or_comm, mul_comm,
    ← two_pow_add_eq_or_of_lt hlow, add_comm]

@[simp] theorem length_packLoop (width : ℕ) (buf : List Byte) (bitpos : ℕ) (vals : List Word) :
    (packLoop width buf bitpos vals).length = buf.length := by
  induction vals generalizing buf bitpos with
  | nil => rfl
  | cons v vals ih => rw [packLoop, ih, length_packField]

/-- The fields a list of words is packed into, as base-`2 ^ width` digits. -/
def fields (width : ℕ) (vals : List Word) : List ℕ := vals.map fun v => v.toNat % 2 ^ width

theorem fields_cons (width : ℕ) (v : Word) (vals : List Word) :
    fields width (v :: vals) = v.toNat % 2 ^ width :: fields width vals := rfl

variable {vals : List Word}

theorem fields_lt : ∀ d ∈ fields width vals, d < 2 ^ width := by
  intro d hd
  obtain ⟨v, -, rfl⟩ := mem_map.mp hd
  exact mod_lt _ (by positivity)

theorem leNat_packLoop (hw : width ≤ 64) {buf : List Byte}
    (hfit : bitpos + vals.length * width ≤ 8 * buf.length)
    (hlow : leNat buf < 2 ^ bitpos) :
    leNat (packLoop width buf bitpos vals) =
      leNat buf + 2 ^ bitpos * Nat.ofDigits (2 ^ width) (fields width vals) := by
  induction vals generalizing buf bitpos with
  | nil => simp [packLoop, fields]
  | cons v vals ih =>
    rw [length_cons, succ_mul] at hfit
    have hfield := leNat_packField (v := v) hw (show bitpos + width ≤ 8 * buf.length by omega) hlow
    have hlow' : leNat (packField width buf bitpos v) < 2 ^ (bitpos + width) := by
      have hv : v.toNat % 2 ^ width < 2 ^ width := mod_lt _ (by positivity)
      rw [hfield, pow_add]
      nlinarith [mul_le_mul_left (2 ^ bitpos) (succ_le_of_lt hv)]
    rw [packLoop, ih (by rw [length_packField]; omega) hlow', hfield, fields_cons,
      ofDigits_cons, pow_add]
    ring

@[simp] theorem bitpack_nil (width : ℕ) : bitpack [] width = [] := by simp [bitpack]

theorem length_bitpack (vals : List Word) (width : ℕ) :
    (bitpack vals width).length = (vals.length * width + 7) / 8 := by
  unfold bitpack
  split
  · next h => rcases h with h | h <;> simp [h]
  · rw [length_packLoop, length_replicate]

theorem leNat_replicate_zero (k : ℕ) : leNat (List.replicate k 0) = 0 := by
  induction k with
  | zero => rfl
  | succ k ih => rw [replicate_succ, leNat_cons, ih]; rfl

/-- **A packed buffer denotes the number whose digits are the fields.** -/
theorem leNat_bitpack (hw : width ≤ 64) (vals : List Word) :
    leNat (bitpack vals width) = Nat.ofDigits (2 ^ width) (fields width vals) := by
  unfold bitpack
  split
  · next h =>
    rcases h with rfl | h
    · rw [leNat_nil, fields, eq_comm]
      simp only [pow_zero, mod_one]
      rw [ofDigits_one]
      simp
    · rw [length_eq_zero_iff] at h
      subst h
      rfl
  · have hlow : leNat (List.replicate ((vals.length * width + 7) / 8) 0) < 2 ^ 0 := by
      rw [leNat_replicate_zero]
      norm_num
    rw [leNat_packLoop hw (by rw [length_replicate]; omega) hlow, leNat_replicate_zero]
    simp

/-! ### Unpacking -/

/-- The wide load of `bitunpack`: eight bytes, and the ninth when the field reaches
into it. -/
def unpackWide (inp : List Byte) (width bitpos : ℕ) : Except Fault Word := do
  let lo := loadUint (← readBytes inp (bitpos / 8) 8)
  let shift := bitpos % 8
  if shift + width > 64 then
    let b ← readByte inp (bitpos / 8 + 8)
    return (lo >>> shift ||| b.setWidth 64 <<< (64 - shift)) &&& mask width
  else
    return (lo >>> shift) &&& mask width

/-- The tail of `bitunpack`: bits `0 … width - 1` of one field, one at a time. -/
def unpackBits (inp : List Byte) (bitpos : ℕ) : ℕ → Except Fault Word
  | 0 => .ok 0
  | b + 1 => do
    let v ← unpackBits inp bitpos b
    let byte ← readByte inp ((bitpos + b) / 8)
    return if byte.getLsbD ((bitpos + b) % 8) then v ||| 1#64 <<< b else v

/-- How many values the wide load serves. -/
def nFast (n width : ℕ) : ℕ :=
  let nbytes := (n * width + 7) / 8
  if 9 ≤ nbytes then min (8 * (nbytes - 9) / width + 1) n else 0

/-- `bitunpack`. -/
def bitunpack (inp : List Byte) (n width : ℕ) : Except Fault (List Word) :=
  if 64 < width then .error (.corrupt "bit width out of range")
  else if width = 0 then .ok (List.replicate n 0)
  else if inp.length < (n * width + 7) / 8 then
    .error (.corrupt "bit-packed body exceeds encoded length")
  else (List.range n).mapM fun i =>
    if i < nFast n width then unpackWide inp width (i * width)
    else unpackBits inp (i * width) width

/-- The field at a bit position, as a word. -/
def fieldWord (inp : List Byte) (pos width : ℕ) : Word := BitVec.ofNat 64 (fieldAt inp pos width)

theorem getLsbD_fieldWord (inp : List Byte) (pos width : ℕ) {i : ℕ} (hi : i < 64) :
    (fieldWord inp pos width).getLsbD i = (decide (i < width) && bitAt inp (pos + i)) := by
  rw [fieldWord, getLsbD_ofNat, testBit_fieldAt]
  simp [hi]

variable {inp : List Byte}

theorem unpackBits_eq (h : bitpos + width ≤ 8 * inp.length) :
    unpackBits inp bitpos width = .ok (fieldWord inp bitpos width) := by
  induction width with
  | zero => simp [unpackBits, fieldWord, fieldAt, mod_one]
  | succ b ih =>
    rw [unpackBits, ih (by omega), readByte_eq (show (bitpos + b) / 8 < inp.length by omega)]
    simp only [bind, Except.bind, pure, Except.pure]
    congr 1
    apply eq_of_getLsbD_eq
    intro i hi
    have hone : (1#64 <<< b).getLsbD i = decide (i = b) := by
      rw [getLsbD_shiftLeft, BitVec.getLsbD_one]
      by_cases hib : i = b
      · subst hib
        simp [hi]
      · have : i < b ∨ i - b ≠ 0 := by omega
        rcases this with h' | h' <;> simp [h', hib]
    change (if bitAt inp (bitpos + b) = true then _ else _ : Word).getLsbD i = _
    rw [getLsbD_fieldWord _ _ _ hi]
    -- bit `b` is the one this iteration adds
    by_cases hib : i = b
    · subst hib
      cases hbit : bitAt inp (bitpos + i) <;> simp [hone, getLsbD_fieldWord _ _ _ hi]
    · have hlt : decide (i < b + 1) = decide (i < b) := by
        rw [decide_eq_decide]
        omega
      rw [hlt]
      cases hbit : bitAt inp (bitpos + b) <;> simp [hone, hib, getLsbD_fieldWord _ _ _ hi]

theorem unpackWide_eq (hw : width ≤ 64) (h : bitpos / 8 + 9 ≤ inp.length) :
    unpackWide inp width bitpos = .ok (fieldWord inp bitpos width) := by
  have hload : ∀ i, (loadUint ((inp.drop (bitpos / 8)).take 8)).getLsbD i =
      (decide (i < 64) && bitAt inp (8 * (bitpos / 8) + i)) := by
    intro i
    rw [loadUint, getLsbD_ofNat, leNat_take, testBit_mod_two_pow, leNat_drop,
      testBit_div_two_pow, testBit_leNat, add_comm i]
    by_cases hi : i < 64 <;> simp [hi]
  have hmask : ∀ (v : Word) i, i < 64 →
      (v &&& mask width).getLsbD i = (decide (i < width) && v.getLsbD i) := by
    intro v i _
    rw [← testBit_toNat, toNat_and_mask hw, testBit_mod_two_pow, testBit_toNat]
  unfold unpackWide
  rw [readBytes_eq (by omega), readByte_eq (show bitpos / 8 + 8 < inp.length by omega)]
  simp only [bind, Except.bind, pure, Except.pure]
  split
  · next hspan =>
    congr 1
    apply eq_of_getLsbD_eq
    intro i hi
    rw [hmask _ _ hi, getLsbD_fieldWord _ _ _ hi, BitVec.getLsbD_or, getLsbD_ushiftRight,
      hload, getLsbD_shiftLeft, getLsbD_setWidth]
    by_cases hlow : bitpos % 8 + i < 64
    · have h1 : i < 64 - bitpos % 8 := by omega
      rw [show 8 * (bitpos / 8) + (bitpos % 8 + i) = bitpos + i by omega]
      simp [hlow, h1]
    · have h1 : ¬ i < 64 - bitpos % 8 := by omega
      have h2 : i - (64 - bitpos % 8) < 64 := by omega
      have h3 : (bitpos + i) / 8 = bitpos / 8 + 8 := by omega
      have h4 : (bitpos + i) % 8 = i - (64 - bitpos % 8) := by omega
      simp [hlow, h1, h2, hi, bitAt, h3, h4]
  · next hspan =>
    congr 1
    apply eq_of_getLsbD_eq
    intro i hi
    rw [hmask _ _ hi, getLsbD_fieldWord _ _ _ hi, getLsbD_ushiftRight, hload,
      show 8 * (bitpos / 8) + (bitpos % 8 + i) = bitpos + i by omega]
    by_cases hiw : i < width
    · have : bitpos % 8 + i < 64 := by omega
      simp [hiw, this]
    · simp [hiw]

/-- The wide load is used only where its nine-byte window lies inside the body. -/
theorem window_of_lt_nFast {n i : ℕ} (hw : 0 < width) (h : i < nFast n width) :
    i * width / 8 + 9 ≤ (n * width + 7) / 8 := by
  unfold nFast at h
  dsimp only at h
  split at h
  · have hi : i ≤ 8 * ((n * width + 7) / 8 - 9) / width := by omega
    have := (le_div_iff_mul_le hw).mp hi
    omega
  · omega

theorem map_fieldWord_zero (inp : List Byte) (n : ℕ) :
    List.replicate n 0 = (List.range n).map fun i => fieldWord inp (i * 0) 0 := by
  symm
  rw [eq_replicate_iff]
  simp [fieldWord, fieldAt, mod_one]

theorem field_fits {n i : ℕ} (hi : i < n) (hlen : (n * width + 7) / 8 ≤ inp.length) :
    i * width + width ≤ 8 * inp.length := by
  have := mul_le_mul_right width (succ_le_of_lt hi)
  rw [succ_mul] at this
  omega

/-- **Both read paths return the bit fields.** -/
theorem bitunpack_eq {n : ℕ} (hw : width ≤ 64) (hlen : (n * width + 7) / 8 ≤ inp.length) :
    bitunpack inp n width = .ok ((List.range n).map fun i => fieldWord inp (i * width) width) := by
  unfold bitunpack
  rw [if_neg (by omega)]
  rcases Nat.eq_zero_or_pos width with rfl | hpos
  · rw [if_pos rfl, map_fieldWord_zero]
  · rw [if_neg (by omega), if_neg (by omega)]
    apply mapM_eq_ok
    intro i hi
    split
    · next hfast =>
      exact unpackWide_eq hw ((window_of_lt_nFast hpos hfast).trans hlen)
    · exact unpackBits_eq (field_fits (mem_range.mp hi) hlen)

/-- **Unpacking undoes packing.** -/
theorem bitunpack_bitpack (vals : List Word) (hw : width ≤ 64)
    (hv : ∀ v ∈ vals, v.toNat < 2 ^ width) (rest : List Byte) :
    bitunpack (bitpack vals width ++ rest) vals.length width = .ok vals := by
  have hlen : (vals.length * width + 7) / 8 ≤ (bitpack vals width ++ rest).length := by
    rw [length_append, length_bitpack]
    omega
  rw [bitunpack_eq hw hlen]
  congr 1
  apply ext_getElem
  · simp
  · intro i hi hi'
    rw [getElem_map, getElem_range]
    have hfit : i * width + width ≤ 8 * (bitpack vals width).length :=
      field_fits hi' (by rw [length_bitpack])
    have hdigit : fieldAt (bitpack vals width) (i * width) width = (vals[i]).toNat := by
      rw [fieldAt, leNat_bitpack hw, mul_comm i, pow_mul,
        ofDigits_div_mod (by positivity) fields_lt i, fields,
        getD_eq_getElem _ _ (by simpa using hi'), getElem_map,
        mod_eq_of_lt (hv _ (getElem_mem hi'))]
    rw [fieldWord, fieldAt_append hfit, hdigit, BitVec.ofNat_toNat, BitVec.setWidth_eq]

/-! ### The per-bit references -/

/-- One field of `ref_bitpack`: each set bit of the value on its own. -/
def refPackField (width : ℕ) (buf : List Byte) (bitpos : ℕ) (v : Word) : List Byte :=
  (List.range width).foldl (fun buf b => if v.getLsbD b then setBit buf (bitpos + b) else buf) buf

/-- The loop of `ref_bitpack` over the values. -/
def refPackLoop (width : ℕ) : List Byte → ℕ → List Word → List Byte
  | buf, _, [] => buf
  | buf, bitpos, v :: vals =>
    refPackLoop width (refPackField width buf bitpos v) (bitpos + width) vals

/-- `ref_bitpack`. -/
def refBitpack (vals : List Word) (width : ℕ) : List Byte :=
  if width = 0 ∨ vals.length = 0 then []
  else refPackLoop width (List.replicate ((vals.length * width + 7) / 8) 0) 0 vals

/-- `ref_bitunpack`, which is not told the input's length. -/
def refBitunpack (inp : List Byte) (n width : ℕ) : Except Fault (List Word) :=
  if width = 0 then .ok (List.replicate n 0)
  else (List.range n).mapM fun i => unpackBits inp (i * width) width

/-- Both packers OR the low `width` bits of the value into the buffer, nothing else. -/
theorem bitAt_packField {buf : List Byte} (v : Word) (hw : width ≤ 64)
    (hfit : bitpos + width ≤ 8 * buf.length) (j : ℕ) : bitAt (packField width buf bitpos v) j =
      (bitAt buf j || (decide (bitpos ≤ j ∧ j < bitpos + width) && v.getLsbD (j - bitpos))) := by
  unfold packField
  dsimp only
  rw [map_packByte _ (by omega) (by omega), bitAt_orAt (by rw [length_leBytes]; omega),
    ← testBit_leNat (leBytes _ _), leNat_leBytes, ← two_pow_eight_mul, Nat.testBit_mod_two_pow,
      ← Nat.shiftLeft_eq,
    Nat.testBit_shiftLeft, toNat_and_mask hw, Nat.testBit_mod_two_pow, testBit_toNat]
  congr 1
  by_cases hj : bitpos ≤ j ∧ j < bitpos + width
  · have h1 : 8 * (bitpos / 8) ≤ j := by omega
    have h2 : j - 8 * (bitpos / 8) < 8 * ((bitpos % 8 + width + 7) / 8) := by omega
    have h3 : bitpos % 8 ≤ j - 8 * (bitpos / 8) := by omega
    have h4 : j - 8 * (bitpos / 8) - bitpos % 8 = j - bitpos := by omega
    have h5 : j - bitpos < width := by omega
    simp [hj, h1, h2, h3, h4, h5]
  · rw [decide_eq_false hj, Bool.false_and]
    by_cases h1 : 8 * (bitpos / 8) ≤ j ∧ bitpos % 8 ≤ j - 8 * (bitpos / 8)
    · have h2 : ¬ j - 8 * (bitpos / 8) - bitpos % 8 < width := by omega
      simp [h2]
    · rw [not_and] at h1
      by_cases h2 : 8 * (bitpos / 8) ≤ j
      · simp [h1 h2]
      · simp [h2]

theorem refPackField_succ (width : ℕ) (buf : List Byte) (bitpos : ℕ) (v : Word) :
    refPackField (width + 1) buf bitpos v =
      if v.getLsbD width then setBit (refPackField width buf bitpos v) (bitpos + width)
      else refPackField width buf bitpos v := by
  rw [refPackField, range_succ, foldl_append]
  rfl

theorem length_refPackField (width : ℕ) (buf : List Byte) (bitpos : ℕ) (v : Word) :
    (refPackField width buf bitpos v).length = buf.length := by
  induction width with
  | zero => rfl
  | succ b ih =>
    rw [refPackField_succ]
    split
    · rw [length_setBit, ih]
    · exact ih

theorem bitAt_refPackField {buf : List Byte} (v : Word)
    (hfit : bitpos + width ≤ 8 * buf.length) (j : ℕ) : bitAt (refPackField width buf bitpos v) j =
      (bitAt buf j || (decide (bitpos ≤ j ∧ j < bitpos + width) && v.getLsbD (j - bitpos))) := by
  induction width with
  | zero =>
    have : ¬ (bitpos ≤ j ∧ j < bitpos + 0) := by omega
    rw [decide_eq_false this, Bool.false_and, Bool.or_false]
    rfl
  | succ b ih =>
    have hstep : bitAt (refPackField (b + 1) buf bitpos v) j =
        (bitAt (refPackField b buf bitpos v) j ||
          (decide (j = bitpos + b) && v.getLsbD b)) := by
      rw [refPackField_succ]
      split
      · next hb => rw [bitAt_setBit (by rw [length_refPackField]; omega), hb, Bool.and_true]
      · next hb => rw [Bool.not_eq_true _ |>.mp hb, Bool.and_false, Bool.or_false]
    rw [hstep, ih (by omega), Bool.or_assoc]
    congr 1
    -- the bit this round sets, or one of the rounds before
    by_cases hj : j = bitpos + b
    · subst hj
      simp
    · have hiff : (bitpos ≤ j ∧ j < bitpos + (b + 1)) ↔ (bitpos ≤ j ∧ j < bitpos + b) := by omega
      simp [hj, hiff]

theorem refPackLoop_eq (hw : width ≤ 64) {buf : List Byte}
    (hfit : bitpos + vals.length * width ≤ 8 * buf.length) :
    refPackLoop width buf bitpos vals = packLoop width buf bitpos vals := by
  induction vals generalizing buf bitpos with
  | nil => rfl
  | cons v vals ih =>
    rw [length_cons, succ_mul] at hfit
    have hfield : refPackField width buf bitpos v = packField width buf bitpos v := by
      apply eq_of_leNat_eq
      · rw [length_refPackField, length_packField]
      · apply eq_of_testBit_eq
        intro j
        rw [testBit_leNat, testBit_leNat, bitAt_refPackField v (by omega),
          bitAt_packField v hw (by omega)]
    rw [refPackLoop, packLoop, hfield, ih (by rw [length_packField]; omega)]

theorem refBitpack_eq (hw : width ≤ 64) (vals : List Word) :
    refBitpack vals width = bitpack vals width := by
  unfold refBitpack bitpack
  split
  · rfl
  · apply refPackLoop_eq hw
    rw [length_replicate]
    omega

theorem refBitunpack_eq {n : ℕ} (hlen : (n * width + 7) / 8 ≤ inp.length) :
    refBitunpack inp n width =
      .ok ((List.range n).map fun i => fieldWord inp (i * width) width) := by
  unfold refBitunpack
  split
  · next h => rw [h, map_fieldWord_zero]
  · apply mapM_eq_ok
    intro i hi
    exact unpackBits_eq (field_fits (mem_range.mp hi) hlen)

/-- **The word-at-a-time codec is the per-bit one.**  The packed bytes are the reference's and
unpack to the values; on every body that holds `n` fields both readers return the same `n` words,
where a read behind the body would be `outOfBounds`.  The byte counts are narrowed to 32 bits: the
reader's is at most the body's length, the writer's less than that of the array of values. -/
theorem bitpack_eq_reference (vals : List Word) (hw : width ≤ 64)
    (hv : ∀ v ∈ vals, v.toNat < 2 ^ width) (inp : List Byte) (n : ℕ)
    (hlen : (n * width + 7) / 8 ≤ inp.length) :
    bitunpack (bitpack vals width) vals.length width = .ok vals ∧
      bitpack vals width = refBitpack vals width ∧
      ∃ out, out.length = n ∧ bitunpack inp n width = .ok out ∧
        refBitunpack inp n width = .ok out := by
  refine ⟨?_, (refBitpack_eq hw vals).symm, ?_⟩
  · simpa using bitunpack_bitpack vals hw hv []
  · exact ⟨_, by simp, bitunpack_eq hw hlen, refBitunpack_eq hlen⟩

/-- Of 14 bytes the first two values are read with wide loads, the last one bit by bit. -/
theorem bitpack_eq_reference_thirtySixBits :
    bitunpack (bitpack [19#64, 68719476735#64, 5#64] 36) 3 36 = .ok [19#64, 68719476735#64, 5#64] ∧
      bitpack [19#64, 68719476735#64, 5#64] 36 = refBitpack [19#64, 68719476735#64, 5#64] 36 ∧
      ∃ out, out.length = 3 ∧ bitunpack (List.replicate 14 183#8) 3 36 = .ok out ∧
        refBitunpack (List.replicate 14 183#8) 3 36 = .ok out :=
  bitpack_eq_reference [19#64, 68719476735#64, 5#64] (by decide) (by simp)
    (List.replicate 14 183#8) 3
    (by decide)

end Encoding
end PgColumnar
