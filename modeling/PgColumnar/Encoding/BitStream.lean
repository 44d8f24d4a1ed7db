import Mathlib.Tactic.Positivity
import PgColumnar.Encoding.Fixed

/-!
# The streaming bit writer and the GORILLA float encoding

`BitWriter` merges variable-width fields into bytes through a 64-bit accumulator;
`br_get` reads a field back one bit at a time.  The writer denotes a number and a
bit length, a put adds the field above that length, and a read at a position is a
division by a power of two followed by a remainder.

## Main definitions

* `bwPut`, `brGet` — the writer with its accumulator, and the reader.
* `encodeGorilla`, `decodeGorilla` — floats, each xored with the one before.

## Main results

* `bwPut_spec` — a put appends the low bits of its argument.
* `bitStream_eq_reference` — the stream is that of a per-bit writer.
-/

namespace PgColumnar
namespace Encoding

open Bytes List

/-! ### Writer -/

/-- `BitWriter`: the finished bytes and the bits held in `cur`. -/
structure BitWriter where
  buf : List Byte
  cur : Byte
  nbits : ℕ

/-- `bw_init`. -/
def bwInit : BitWriter := ⟨[], 0, 0⟩

/-- The byte loop of `bw_put`: emit `k` whole bytes of the accumulator. -/
def drain : ℕ → List Byte → Word → List Byte × Word
  | 0, buf, acc => (buf, acc)
  | k + 1, buf, acc => drain k (buf ++ [acc.setWidth 8]) (acc >>> 8)

/-- One chunk of `bw_put`: `take` bits enter the accumulator above the carried ones. -/
def putChunk (bw : BitWriter) (v : Word) (take : ℕ) : BitWriter :=
  let chunk := v &&& ((1#64 <<< take) - 1)
  let acc := bw.cur.setWidth 64 ||| chunk <<< bw.nbits
  let have' := bw.nbits + take
  let r := drain (have' / 8) bw.buf acc
  ⟨r.1, r.2.setWidth 8, have' % 8⟩

/-- The chunk loop of `bw_put`; every chunk takes at least one bit, so `fuel` never
runs out when it starts at the number of bits. -/
def putLoop : ℕ → BitWriter → Word → ℕ → BitWriter
  | 0, bw, _, _ => bw
  | fuel + 1, bw, v, bits =>
    if bits = 0 then bw
    else
      let take := if bits < 57 then bits else 57
      putLoop fuel (putChunk bw v take) (v >>> take) (bits - take)

/-- `bw_put`. -/
def bwPut (bw : BitWriter) (v : Word) (bits : ℕ) : BitWriter :=
  putLoop bits bw (if bits < 64 then v &&& ((1#64 <<< bits) - 1) else v) bits

/-- `bw_flush`, returning the finished bytes. -/
def bwFlush (bw : BitWriter) : List Byte :=
  if 0 < bw.nbits then bw.buf ++ [bw.cur] else bw.buf

/-- Fewer than eight bits are held back, and `cur` has no others. -/
def BitWriter.WF (bw : BitWriter) : Prop := bw.nbits < 8 ∧ bw.cur.toNat < 2 ^ bw.nbits

/-- The number written so far. -/
def BitWriter.num (bw : BitWriter) : ℕ := leNat bw.buf + 256 ^ bw.buf.length * bw.cur.toNat

/-- The bits written so far. -/
def BitWriter.len (bw : BitWriter) : ℕ := 8 * bw.buf.length + bw.nbits

/-- `bw'` is `bw` behind `len` further bits that denote `num`. -/
structure Puts (bw : BitWriter) (len num : ℕ) (bw' : BitWriter) : Prop where
  wf : bw'.WF
  len_eq : bw'.len = bw.len + len
  num_eq : bw'.num = bw.num + 2 ^ bw.len * num

theorem bwInit_wf : bwInit.WF := ⟨by decide, by decide⟩

theorem drain_eq (k : ℕ) (buf : List Byte) (acc : Word) :
    drain k buf acc = (buf ++ leBytes k acc.toNat, acc >>> (8 * k)) := by
  induction k generalizing buf acc with
  | zero => simp [drain, leBytes]
  | succ k ih =>
    have hbyte : (acc.setWidth 8 : Byte) = BitVec.ofNat 8 acc.toNat := rfl
    have hshift : (acc >>> 8).toNat = acc.toNat / 256 := by
      rw [BitVec.toNat_ushiftRight, Nat.shiftRight_eq_div_pow]
    rw [drain, ih, leBytes, hbyte, hshift, append_assoc, singleton_append,
      ← BitVec.shiftRight_add, Nat.mul_succ, Nat.add_comm 8]

theorem toNat_and_low {take : ℕ} (h : take < 64) (v : Word) :
    (v &&& ((1#64 <<< take) - 1)).toNat = v.toNat % 2 ^ take := by
  have hm := toNat_and_mask (Nat.le_of_lt h) v
  rwa [mask, if_neg (by omega)] at hm

/-- The accumulator holds the carried bits below the new ones. -/
theorem toNat_acc {take : ℕ} {cur : Byte} {chunk : Word} {nbits : ℕ} (hn : nbits < 8)
    (ht : take ≤ 57)
    (hcur : cur.toNat < 2 ^ nbits) (hchunk : chunk.toNat < 2 ^ take) :
    (cur.setWidth 64 ||| chunk <<< nbits).toNat = cur.toNat + 2 ^ nbits * chunk.toNat := by
  have hfit : chunk.toNat * 2 ^ nbits < 2 ^ 64 := by
    calc chunk.toNat * 2 ^ nbits < 2 ^ take * 2 ^ nbits :=
          Nat.mul_lt_mul_of_pos_right hchunk (by positivity)
      _ = 2 ^ (take + nbits) := (pow_add _ _ _).symm
      _ ≤ 2 ^ 64 := Nat.pow_le_pow_right (by norm_num) (by omega)
  have hc : (cur.setWidth 64).toNat = cur.toNat := by
    rw [BitVec.toNat_setWidth, Nat.mod_eq_of_lt]
    exact cur.isLt.trans_le (by norm_num)
  rw [BitVec.toNat_or, hc, BitVec.toNat_shiftLeft, Nat.shiftLeft_eq, Nat.mod_eq_of_lt hfit,
    Nat.or_comm, mul_comm, ← Nat.two_pow_add_eq_or_of_lt hcur, Nat.add_comm]

variable {bw bw' bw'' : BitWriter} {len num : ℕ}

theorem BitWriter.WF.puts_nil (h : bw.WF) : Puts bw 0 0 bw := ⟨h, rfl, by simp⟩

theorem Puts.trans {len' num' : ℕ} (h : Puts bw len num bw') (h' : Puts bw' len' num' bw'') :
    Puts bw (len + len') (num + 2 ^ len * num') bw'' := by
  refine ⟨h'.wf, by rw [h'.len_eq, h.len_eq, Nat.add_assoc], ?_⟩
  rw [h'.num_eq, h.num_eq, h.len_eq, pow_add]
  ring

/-- One chunk appends its bits to the number. -/
theorem putChunk_spec {take : ℕ} (hbw : bw.WF) (v : Word) (ht : take ≤ 57) :
    Puts bw take (v.toNat % 2 ^ take) (putChunk bw v take) := by
  obtain ⟨hn, hcur⟩ := hbw
  set c := v.toNat % 2 ^ take with hc
  have hclt : c < 2 ^ take := Nat.mod_lt _ (by positivity)
  have hchunk : (v &&& ((1#64 <<< take) - 1)).toNat = c := toNat_and_low (by omega) v
  have hacc := toNat_acc hn ht hcur (by rw [hchunk]; exact hclt)
  rw [hchunk] at hacc
  set acc := bw.cur.setWidth 64 ||| (v &&& ((1#64 <<< take) - 1)) <<< bw.nbits with haccdef
  set k := (bw.nbits + take) / 8 with hk
  have hput : putChunk bw v take =
      ⟨bw.buf ++ leBytes k acc.toNat, (acc >>> (8 * k)).setWidth 8, (bw.nbits + take) % 8⟩ := by
    unfold putChunk
    dsimp only
    rw [← haccdef, ← hk, drain_eq]
  -- what stays in `cur` is the part of the accumulator above the emitted bytes
  have hhigh : acc.toNat / 256 ^ k < 2 ^ ((bw.nbits + take) % 8) := by
    rw [Nat.div_lt_iff_lt_mul (by positivity), ← two_pow_eight_mul, ← pow_add,
      show (bw.nbits + take) % 8 + 8 * k = bw.nbits + take by omega, hacc, pow_add]
    nlinarith [Nat.mul_le_mul_left (2 ^ bw.nbits) (Nat.succ_le_of_lt hclt)]
  have hhigh8 : acc.toNat / 256 ^ k < 2 ^ 8 :=
    hhigh.trans_le (Nat.pow_le_pow_right (by norm_num) (by omega))
  have hcur' : ((acc >>> (8 * k)).setWidth 8 : Byte).toNat = acc.toNat / 256 ^ k := by
    rw [BitVec.toNat_setWidth, BitVec.toNat_ushiftRight, Nat.shiftRight_eq_div_pow,
      two_pow_eight_mul, Nat.mod_eq_of_lt hhigh8]
  rw [hput]
  refine ⟨⟨Nat.mod_lt _ (by norm_num), ?_⟩, ?_, ?_⟩
  · show ((acc >>> (8 * k)).setWidth 8 : Byte).toNat < _
    rw [hcur']
    exact hhigh
  · simp only [BitWriter.len, length_append, length_leBytes]
    omega
  · simp only [BitWriter.num, BitWriter.len]
    rw [hcur', leNat_append, leNat_leBytes, length_append, length_leBytes, pow_add 256,
      pow_add 2, two_pow_eight_mul]
    have hsplit : acc.toNat % 256 ^ k + 256 ^ k * (acc.toNat / 256 ^ k) = acc.toNat :=
      Nat.mod_add_div _ _
    calc leNat bw.buf + 256 ^ bw.buf.length * (acc.toNat % 256 ^ k) +
          256 ^ bw.buf.length * 256 ^ k * (acc.toNat / 256 ^ k)
        = leNat bw.buf + 256 ^ bw.buf.length *
            (acc.toNat % 256 ^ k + 256 ^ k * (acc.toNat / 256 ^ k)) := by ring
      _ = _ := by
          rw [hsplit, hacc]
          ring

theorem putLoop_spec {fuel : ℕ} (hbw : bw.WF) {v : Word} {bits : ℕ} (hfuel : bits ≤ fuel) :
    Puts bw bits (v.toNat % 2 ^ bits) (putLoop fuel bw v bits) := by
  induction fuel generalizing bw v bits with
  | zero =>
    obtain rfl : bits = 0 := by omega
    simpa [putLoop, Nat.mod_one] using hbw.puts_nil
  | succ fuel ih =>
    rw [putLoop]
    split
    · next h0 =>
      subst h0
      simpa [Nat.mod_one] using hbw.puts_nil
    · next h0 =>
      dsimp only
      set take := if bits < 57 then bits else 57 with htake
      obtain ⟨htake57, htakepos, htakele⟩ : take ≤ 57 ∧ 0 < take ∧ take ≤ bits := by
        rw [htake]
        split <;> omega
      have hchunk := putChunk_spec hbw v htake57
      have hput := hchunk.trans (ih (v := v >>> take) hchunk.wf (show bits - take ≤ fuel by omega))
      rwa [BitVec.toNat_ushiftRight, Nat.shiftRight_eq_div_pow, ← Nat.mod_mul, ← pow_add,
        Nat.add_sub_cancel' htakele] at hput

/-- **A put appends the low bits of its argument.** -/
theorem bwPut_spec (hbw : bw.WF) (v : Word) (bits : ℕ) :
    Puts bw bits (v.toNat % 2 ^ bits) (bwPut bw v bits) := by
  have hput := putLoop_spec (v := if bits < 64 then v &&& ((1#64 <<< bits) - 1) else v) hbw
    (Nat.le_refl bits)
  have hlow : (if bits < 64 then v &&& ((1#64 <<< bits) - 1) else v).toNat % 2 ^ bits =
      v.toNat % 2 ^ bits := by
    split
    · next h => rw [toNat_and_low h, Nat.mod_mod]
    · rfl
  rwa [hlow] at hput

theorem leNat_bwFlush (hbw : bw.WF) : leNat (bwFlush bw) = bw.num := by
  unfold bwFlush BitWriter.num
  split
  · rw [leNat_append, leNat_cons, leNat_nil]
    ring
  · next h =>
    have hz : bw.nbits = 0 := by omega
    have hcur := hbw.2
    rw [hz] at hcur
    rw [show bw.cur.toNat = 0 by omega]
    ring

theorem length_bwFlush (hbw : bw.WF) : (bwFlush bw).length = (bw.len + 7) / 8 := by
  have := hbw.1
  unfold bwFlush BitWriter.len
  split
  · rw [length_append, length_singleton]
    omega
  · omega

/-- Writers that put the same bits have the same bytes. -/
theorem Puts.bwFlush_eq (h : Puts bw len num bw') (h' : Puts bw len num bw'') :
    bwFlush bw' = bwFlush bw'' := by
  apply eq_of_leNat_eq
  · rw [length_bwFlush h.wf, length_bwFlush h'.wf, h.len_eq, h'.len_eq]
  · rw [leNat_bwFlush h.wf, leNat_bwFlush h'.wf, h.num_eq, h'.num_eq]

/-! ### A run of puts, and the reader -/

/-- Put a list of `(value, bits)` fields. -/
def putAll (bw : BitWriter) (fs : List (Word × ℕ)) : BitWriter :=
  fs.foldl (fun bw f => bwPut bw f.1 f.2) bw

/-- The number a list of fields denotes, the first field lowest. -/
def fieldsNat : List (Word × ℕ) → ℕ
  | [] => 0
  | f :: fs => f.1.toNat % 2 ^ f.2 + 2 ^ f.2 * fieldsNat fs

/-- The bits a list of fields takes. -/
def fieldsLen (fs : List (Word × ℕ)) : ℕ := (fs.map Prod.snd).sum

theorem fieldsLen_cons (f : Word × ℕ) (fs : List (Word × ℕ)) :
    fieldsLen (f :: fs) = f.2 + fieldsLen fs := rfl

theorem foldl_put_spec {put : BitWriter → Word → ℕ → BitWriter}
    (hput : ∀ bw v bits, bw.WF → Puts bw bits (v.toNat % 2 ^ bits) (put bw v bits)) (hbw : bw.WF)
    (fs : List (Word × ℕ)) :
    Puts bw (fieldsLen fs) (fieldsNat fs) (fs.foldl (fun bw f => put bw f.1 f.2) bw) := by
  induction fs generalizing bw with
  | nil => exact hbw.puts_nil
  | cons f fs ih =>
    have hf := hput bw f.1 f.2 hbw
    exact hf.trans (ih hf.wf)

theorem putAll_spec (hbw : bw.WF) (fs : List (Word × ℕ)) :
    Puts bw (fieldsLen fs) (fieldsNat fs) (putAll bw fs) :=
  foldl_put_spec (fun _ v bits hbw => bwPut_spec hbw v bits) hbw fs

/-- `br_get`: a field at `bitpos`, and the position behind it. -/
def brGet (data : List Byte) (bitpos bits : ℕ) : Except Fault (Word × ℕ) :=
  if 64 < bits then .error (.corrupt "bit field width out of range")
  else if data.length * 8 < bitpos + bits then
    .error (.corrupt "bit reader ran past encoded length")
  else do
    let v ← unpackBits data bitpos bits
    return (v, bitpos + bits)

/-- The reader stands in front of the fields `fs` of the data. -/
structure At (data : List Byte) (pos : ℕ) (fs : List (Word × ℕ)) : Prop where
  num : leNat data / 2 ^ pos = fieldsNat fs
  room : pos + fieldsLen fs ≤ 8 * data.length

variable {data : List Byte} {pos : ℕ} {fs : List (Word × ℕ)}

/-- Reading the next field returns it and moves behind it. -/
theorem brGet_at {f : Word × ℕ}
    (h : At data pos (f :: fs)) (hbits : f.2 ≤ 64) (hf : f.1.toNat < 2 ^ f.2) :
    brGet data pos f.2 = .ok (f.1, pos + f.2) ∧ At data (pos + f.2) fs := by
  have hroom := h.room
  rw [fieldsLen_cons] at hroom
  have hnum := h.num
  rw [fieldsNat, Nat.mod_eq_of_lt hf] at hnum
  have hpos : 0 < 2 ^ f.2 := by positivity
  refine ⟨?_, ⟨?_, by omega⟩⟩
  · unfold brGet
    rw [if_neg (by omega), if_neg (by omega), unpackBits_eq (by omega), fieldWord, fieldAt, hnum,
      Nat.add_mul_mod_self_left, Nat.mod_eq_of_lt hf, BitVec.ofNat_toNat, BitVec.setWidth_eq]
    rfl
  · rw [pow_add, ← Nat.div_div_eq_div_mul, hnum, Nat.add_mul_div_left _ _ hpos,
      Nat.div_eq_of_lt hf, Nat.zero_add]

/-- The finished bytes stand in front of everything that was put. -/
theorem at_bwFlush (fs : List (Word × ℕ)) : At (bwFlush (putAll bwInit fs)) 0 fs := by
  obtain ⟨hwf, hlen, hnum⟩ := putAll_spec bwInit_wf fs
  have hinit : bwInit.num = 0 ∧ bwInit.len = 0 := ⟨by decide, by decide⟩
  rw [hinit.2] at hlen
  rw [hinit.1, hinit.2] at hnum
  refine ⟨?_, ?_⟩
  · rw [leNat_bwFlush hwf, hnum]
    simp
  · rw [length_bwFlush hwf]
    omega

/-- Read fields of the given widths one behind the other. -/
def brGetAll (data : List Byte) : ℕ → List ℕ → Except Fault (List Word)
  | _, [] => .ok []
  | pos, bits :: rest => do
    let (v, pos) ← brGet data pos bits
    let vs ← brGetAll data pos rest
    return v :: vs

theorem brGetAll_at (hbits : ∀ f ∈ fs, f.2 ≤ 64) (h : At data pos fs) :
    brGetAll data pos (fs.map Prod.snd) = .ok (fs.map fun f => f.1 &&& mask f.2) := by
  induction fs generalizing pos with
  | nil => rfl
  | cons f fs ih =>
    obtain ⟨hf, hfs⟩ := forall_mem_cons.mp hbits
    have hmask := toNat_and_mask hf f.1
    have hlow : At data pos ((f.1 &&& mask f.2, f.2) :: fs) := by
      refine ⟨?_, h.room⟩
      rw [h.num, fieldsNat, fieldsNat, hmask, Nat.mod_mod]
    obtain ⟨hget, hat⟩ := brGet_at hlow hf (by rw [hmask]; exact Nat.mod_lt _ (by positivity))
    rw [map_cons, brGetAll]
    simp only [hget, bind, Except.bind, ih hfs hat, pure, Except.pure, map_cons]

/-! ### The per-bit reference writer -/

/-- One bit of `ref_bw_put`. -/
def refPutBit (bw : BitWriter) (b : Bool) : BitWriter :=
  let cur := if b then bw.cur ||| 1#8 <<< bw.nbits else bw.cur
  if bw.nbits + 1 = 8 then ⟨bw.buf ++ [cur], 0, 0⟩ else ⟨bw.buf, cur, bw.nbits + 1⟩

/-- `ref_bw_put`. -/
def refBwPut (bw : BitWriter) (v : Word) (bits : ℕ) : BitWriter :=
  (List.range bits).foldl (fun bw i => refPutBit bw (v.getLsbD i)) bw

theorem refPutBit_spec (hbw : bw.WF) (b : Bool) : Puts bw 1 b.toNat (refPutBit bw b) := by
  obtain ⟨hn, hcur⟩ := hbw
  have hbit : (1#8 <<< bw.nbits).toNat = 2 ^ bw.nbits := by
    rw [BitVec.toNat_shiftLeft, Nat.shiftLeft_eq, show (1#8).toNat = 1 from rfl, one_mul]
    exact Nat.mod_eq_of_lt (Nat.pow_lt_pow_right (by norm_num) hn)
  have hnew : (if b then bw.cur ||| 1#8 <<< bw.nbits else bw.cur).toNat =
      bw.cur.toNat + 2 ^ bw.nbits * b.toNat := by
    cases b with
    | false => simp
    | true =>
      have hor := Nat.two_pow_add_eq_or_of_lt hcur 1
      rw [Nat.mul_one] at hor
      rw [if_pos rfl, BitVec.toNat_or, hbit, Nat.or_comm, ← hor, Bool.toNat_true, Nat.mul_one,
        Nat.add_comm]
  have hb := b.toNat_le
  unfold refPutBit
  dsimp only
  generalize (if b then bw.cur ||| 1#8 <<< bw.nbits else bw.cur) = cur at hnew
  have hlen : 2 ^ bw.len = 256 ^ bw.buf.length * 2 ^ bw.nbits := by
    rw [BitWriter.len, pow_add, two_pow_eight_mul]
  have hlt : cur.toNat < 2 ^ (bw.nbits + 1) := by
    rw [hnew, pow_succ]
    nlinarith
  split
  · refine ⟨bwInit_wf, ?_, ?_⟩
    · simp only [BitWriter.len, length_append, length_singleton]
      omega
    · simp only [BitWriter.num, leNat_append, leNat_cons, leNat_nil, hnew, hlen]
      simp
      ring
  · refine ⟨⟨by simp only; omega, hlt⟩, ?_, ?_⟩
    · simp only [BitWriter.len]
      omega
    · simp only [BitWriter.num, hnew, hlen]
      ring

/-- The reference appends what `bw_put` appends. -/
theorem refBwPut_spec (hbw : bw.WF) (v : Word) (bits : ℕ) :
    Puts bw bits (v.toNat % 2 ^ bits) (refBwPut bw v bits) := by
  induction bits with
  | zero => simpa [refBwPut, Nat.mod_one] using hbw.puts_nil
  | succ b ih =>
    have hput := ih.trans (refPutBit_spec ih.wf (v.getLsbD b))
    rw [← BitVec.testBit_toNat, Nat.toNat_testBit, ← Nat.mod_pow_succ] at hput
    rwa [refBwPut, range_succ, foldl_append]

/-! ### GORILLA: XOR against the previous value -/

/-- The loop of `pg_rightmost_one_pos64`. -/
def rightmostLoop : ℕ → ℕ → ℕ
  | 0, _ => 0
  | fuel + 1, x => if x % 2 = 1 then 0 else rightmostLoop fuel (x / 2) + 1

/-- `clz_in`: leading zeros of `x` within a `total`-bit window. -/
def clzIn (x : Word) (total : ℕ) : ℕ := if x = 0 then total else total - 1 - x.toNat.log2

/-- `ctz_in`. -/
def ctzIn (x : Word) : ℕ := if x = 0 then 0 else rightmostLoop 64 x.toNat

/-- The fields `encode_gorilla` puts for one value, given its XOR with the previous. -/
def xorFields (total field : ℕ) (x : Word) : List (Word × ℕ) :=
  if x = 0 then [(0, 1)]
  else
    let lz := clzIn x total
    let tz := ctzIn x
    let mlen := total - lz - tz
    [(1, 1), (BitVec.ofNat 64 lz, field), (BitVec.ofNat 64 (mlen - 1), field), (x >>> tz, mlen)]

/-- The fields of the values behind `prev`. -/
def gorillaFields (total field : ℕ) (prev : Word) : List Word → List (Word × ℕ)
  | [] => []
  | v :: vs => xorFields total field (v ^^^ prev) ++ gorillaFields total field v vs

/-- The bits of the two length fields. -/
def gorillaField (w : ℕ) : ℕ := if w = 8 then 6 else 5

/-- `encode_gorilla`. -/
def encodeGorilla (rawLen w : ℕ) (raw : List (List Byte)) : Option (List Byte) :=
  let vals := raw.map loadUint
  let prev := vals.headD 0
  -- first value verbatim
  let fs := (prev, w * 8) :: gorillaFields (w * 8) (gorillaField w) prev vals.tail
  keepIfSmaller rawLen (bwFlush (putAll bwInit fs))

/-- One value of `decode_gorilla`: the value and the position behind it. -/
def gorillaNext (data : List Byte) (total field : ℕ) (prev : Word) (pos : ℕ) :
    Except Fault (Word × ℕ) := do
  let (c, pos) ← brGet data pos 1
  if c = 0 then return (prev, pos)
  else
    let (lz, pos) ← brGet data pos field
    let (m, pos) ← brGet data pos field
    let mlen := m.toNat + 1
    if total < mlen ∨ total < lz.toNat + mlen then
      .error (.corrupt "GORILLA XOR field out of range")
    else
      let (meaningful, pos) ← brGet data pos mlen
      return (prev ^^^ meaningful <<< (total - lz.toNat - mlen), pos)

/-- The loop of `decode_gorilla` over the remaining values. -/
def gorillaLoop (data : List Byte) (total field : ℕ) : ℕ → Word → ℕ → Except Fault (List Word)
  | 0, _, _ => .ok []
  | k + 1, prev, pos => do
    let (v, pos) ← gorillaNext data total field prev pos
    let rest ← gorillaLoop data total field k v pos
    return v :: rest

/-- `decode_gorilla`. -/
def decodeGorilla (enc : List Byte) (w n : ℕ) : Except Fault (List Byte) := do
  let (prev, pos) ← brGet enc 0 (w * 8)
  let rest ← gorillaLoop enc (w * 8) (gorillaField w) (n - 1) prev pos
  let vals := if 0 < n then prev :: rest else []
  return (vals.map fun v => storeUint v w).flatten

theorem rightmostLoop_spec {fuel x : ℕ} (hx : 0 < x) (hlt : x < 2 ^ fuel) :
    2 ^ rightmostLoop fuel x ∣ x := by
  induction fuel generalizing x with
  | zero => simp [rightmostLoop]
  | succ fuel ih =>
    rw [rightmostLoop]
    split
    · simp
    · next heven =>
      have hhalf : x = x / 2 * 2 := by omega
      have hih := ih (x := x / 2) (by omega) (by rw [pow_succ] at hlt; omega)
      rw [pow_succ]
      calc 2 ^ rightmostLoop fuel (x / 2) * 2 ∣ x / 2 * 2 := Nat.mul_dvd_mul_right hih 2
        _ = x := hhalf.symm

/-- Everything the decoder relies on about the window of a non-zero XOR. -/
theorem window_spec {total : ℕ} {x : Word} (hx : x ≠ 0) (hlt : x.toNat < 2 ^ total) :
    clzIn x total < total ∧ clzIn x total + ctzIn x < total ∧
      (x >>> ctzIn x).toNat < 2 ^ (total - clzIn x total - ctzIn x) ∧
      (x >>> ctzIn x) <<< ctzIn x = x := by
  have hpos : 0 < x.toNat := by
    rcases Nat.eq_zero_or_pos x.toNat with h | h
    · exact absurd (BitVec.eq_of_toNat_eq h) hx
    · exact h
  have hlog : x.toNat.log2 < total := (Nat.log2_lt hpos.ne').mpr hlt
  have hdvd : 2 ^ ctzIn x ∣ x.toNat := by
    rw [ctzIn, if_neg hx]
    exact rightmostLoop_spec hpos x.isLt
  have htz : ctzIn x ≤ x.toNat.log2 := (Nat.le_log2 hpos.ne').mpr (Nat.le_of_dvd hpos hdvd)
  have hshift : (x >>> ctzIn x).toNat = x.toNat / 2 ^ ctzIn x := by
    rw [BitVec.toNat_ushiftRight, Nat.shiftRight_eq_div_pow]
  have hclz : clzIn x total = total - 1 - x.toNat.log2 := by rw [clzIn, if_neg hx]
  refine ⟨by omega, by omega, ?_, ?_⟩
  · rw [hshift, Nat.div_lt_iff_lt_mul (by positivity), ← pow_add,
      show total - clzIn x total - ctzIn x + ctzIn x = x.toNat.log2 + 1 by omega]
    exact Nat.lt_log2_self
  · apply BitVec.eq_of_toNat_eq
    rw [BitVec.toNat_shiftLeft, hshift, Nat.shiftLeft_eq, Nat.div_mul_cancel hdvd,
      Nat.mod_eq_of_lt x.isLt]

/-- Decoding one value behind `prev`. -/
theorem gorillaNext_at {w : ℕ} {prev v : Word}
    (hw : w = 4 ∨ w = 8) (hx : (v ^^^ prev).toNat < 2 ^ (w * 8))
    (h : At data pos (xorFields (w * 8) (gorillaField w) (v ^^^ prev) ++ fs)) :
    ∃ pos', gorillaNext data (w * 8) (gorillaField w) prev pos = .ok (v, pos') ∧
      At data pos' fs := by
  have hfield : gorillaField w ≤ 64 ∧ w * 8 ≤ 2 ^ gorillaField w ∧ w * 8 ≤ 64 := by
    rcases hw with rfl | rfl <;> decide
  obtain ⟨hf64, hfpow, hw64⟩ := hfield
  by_cases hzero : v ^^^ prev = 0
  · -- control bit 0: the value repeats
    rw [xorFields, if_pos hzero] at h
    obtain ⟨h0, hat⟩ := brGet_at h (by norm_num) (by decide)
    refine ⟨pos + 1, ?_, hat⟩
    have hv : prev = v := (BitVec.xor_eq_zero_iff.mp hzero).symm
    unfold gorillaNext
    simp only [h0, bind, Except.bind, pure, Except.pure, if_true, hv]
  · obtain ⟨hlz, hsum, hmean, hback⟩ := window_spec hzero hx
    rw [xorFields, if_neg hzero] at h
    dsimp only [cons_append, nil_append] at h
    set x := v ^^^ prev with hxdef
    set lz := clzIn x (w * 8)
    set tz := ctzIn x
    set mlen := w * 8 - lz - tz with hmlen
    have hlzn : (BitVec.ofNat 64 lz).toNat = lz := by
      rw [BitVec.toNat_ofNat, Nat.mod_eq_of_lt (by omega)]
    have hmn : (BitVec.ofNat 64 (mlen - 1)).toNat = mlen - 1 := by
      rw [BitVec.toNat_ofNat, Nat.mod_eq_of_lt (by omega)]
    obtain ⟨h1, hat1⟩ := brGet_at h (by norm_num) (by decide)
    obtain ⟨h2, hat2⟩ := brGet_at hat1 hf64 (by dsimp only; omega)
    obtain ⟨h3, hat3⟩ := brGet_at hat2 hf64 (by dsimp only; omega)
    obtain ⟨h4, hat4⟩ := brGet_at hat3 (by dsimp only; omega) hmean
    refine ⟨_, ?_, hat4⟩
    have hm : mlen - 1 + 1 = mlen := by omega
    have htz : w * 8 - lz - mlen = tz := by omega
    have hv : prev ^^^ x = v := by
      rw [hxdef, BitVec.xor_comm v, ← BitVec.xor_assoc, BitVec.xor_self, BitVec.zero_xor]
    unfold gorillaNext
    simp only [h1, bind, Except.bind, h2, h3, hlzn, hmn, hm, h4, htz, hback, hv, pure, Except.pure]
    rw [if_neg (by decide), if_neg (by omega)]

theorem gorillaLoop_at {w : ℕ} (hw : w = 4 ∨ w = 8) {vals : List Word}
    {prev : Word} (hprev : prev.toNat < 2 ^ (w * 8))
    (hvals : ∀ v ∈ vals, v.toNat < 2 ^ (w * 8))
    (h : At data pos (gorillaFields (w * 8) (gorillaField w) prev vals)) :
    gorillaLoop data (w * 8) (gorillaField w) vals.length prev pos = .ok vals := by
  induction vals generalizing prev pos with
  | nil => rfl
  | cons v vals ih =>
    have hv := hvals v mem_cons_self
    have hx : (v ^^^ prev).toNat < 2 ^ (w * 8) := by
      rw [BitVec.toNat_xor]
      exact Nat.xor_lt_two_pow hv hprev
    obtain ⟨pos', hnext, hat⟩ := gorillaNext_at hw hx h
    have hrest := ih hv (fun u hu => hvals u (mem_cons_of_mem v hu)) hat
    rw [length_cons, gorillaLoop]
    simp only [hnext, bind, Except.bind, hrest, pure, Except.pure]

/-- **GORILLA round trip.** -/
theorem decodeGorilla_encodeGorilla {w rawLen : ℕ} {raw : List (List Byte)} {out : List Byte}
    (hw : w = 4 ∨ w = 8) (hlen : ∀ v ∈ raw, v.length = w)
    (h : encodeGorilla rawLen w raw = some out) :
    decodeGorilla out w raw.length = .ok raw.flatten := by
  obtain ⟨rfl, -⟩ := keepIfSmaller_eq_some h
  have hw8 : w ≤ 8 := by omega
  have hsmall : ∀ v ∈ raw, (loadUint v).toNat < 2 ^ (w * 8) := by
    intro v hv
    have hl := hlen v hv
    rw [toNat_loadUint (by omega), mul_comm, two_pow_eight_mul, ← hl]
    exact leNat_lt v
  unfold decodeGorilla
  cases raw with
  | nil =>
    -- the decoder still reads the first field, and stores nothing
    obtain ⟨hfirst, -⟩ := brGet_at (at_bwFlush [((0 : Word), w * 8)]) (by dsimp only; omega)
      (by rw [show ((0 : Word), w * 8).1.toNat = 0 from rfl]; positivity)
    simp only [map_nil, headD_nil, tail_nil, gorillaFields, hfirst, bind, Except.bind, length_nil,
      Nat.zero_sub, gorillaLoop, pure, Except.pure]
    rfl
  | cons r rs =>
    simp only [map_cons, headD_cons, tail_cons]
    set fs := gorillaFields (w * 8) (gorillaField w) (loadUint r) (rs.map loadUint) with hfs
    have hat := at_bwFlush ((loadUint r, w * 8) :: fs)
    set data := bwFlush (putAll bwInit ((loadUint r, w * 8) :: fs))
    obtain ⟨hr, hrs⟩ := forall_mem_cons.mp hsmall
    obtain ⟨hfirst, hat'⟩ := brGet_at hat (by dsimp only; omega) hr
    have hrest := gorillaLoop_at hw hr (forall_mem_map.mpr hrs) hat'
    rw [length_map] at hrest
    simp only [hfirst, bind, Except.bind, length_cons, Nat.add_sub_cancel, hrest, pure,
      Except.pure, Nat.succ_pos, if_true]
    rw [← map_cons, flatten_map_storeUint hw8 hlen]

/-- **The bit stream and the XOR codec.**  A sequence of puts leaves the bytes of the per-bit
reference, the reader returns the fields put, and the decoder returns every list of words from its
encoding. -/
theorem bitStream_eq_reference (fs : List (Word × ℕ)) (hbits : ∀ f ∈ fs, f.2 ≤ 64) {w : ℕ}
    (raw : List (List Byte)) (hw : w = 4 ∨ w = 8) (hlen : ∀ v ∈ raw, v.length = w) :
    bwFlush (putAll bwInit fs) = bwFlush (fs.foldl (fun bw f => refBwPut bw f.1 f.2) bwInit) ∧
      brGetAll (bwFlush (putAll bwInit fs)) 0 (fs.map Prod.snd) =
        .ok (fs.map fun f => f.1 &&& mask f.2) ∧
      ∃ out, (∀ rawLen, encodeGorilla rawLen w raw = keepIfSmaller rawLen out) ∧
        decodeGorilla out w raw.length = .ok raw.flatten := by
  refine ⟨?_, brGetAll_at hbits (at_bwFlush fs), _, fun _ => rfl,
    decodeGorilla_encodeGorilla hw hlen (if_neg (Nat.not_succ_le_self _))⟩
  exact (putAll_spec bwInit_wf fs).bwFlush_eq
    (foldl_put_spec (fun _ v bits hbw => refBwPut_spec hbw v bits) bwInit_wf fs)

theorem bitStream_eq_reference_words :
    let fs : List (Word × ℕ) := [(5, 3), (0, 64)]
    let raw : List (List Byte) := [[1, 2, 3, 4], [1, 2, 3, 5]]
    bwFlush (putAll bwInit fs) = bwFlush (fs.foldl (fun bw f => refBwPut bw f.1 f.2) bwInit) ∧
      brGetAll (bwFlush (putAll bwInit fs)) 0 (fs.map Prod.snd) =
        .ok (fs.map fun f => f.1 &&& mask f.2) ∧
      ∃ out, (∀ rawLen, encodeGorilla rawLen 4 raw = keepIfSmaller rawLen out) ∧
        decodeGorilla out 4 2 = .ok raw.flatten :=
  bitStream_eq_reference [(5, 3), (0, 64)] (by decide) [[1, 2, 3, 4], [1, 2, 3, 5]] (.inl rfl)
    (by decide)

end Encoding
end PgColumnar
