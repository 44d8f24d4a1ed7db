import PgColumnar.Lib.Bytes

/-!
# MurmurHash3

The 32-bit hash of a byte string: words of four bytes are mixed into a state, the bytes that are
left make one more word, and the length goes in before the last mixing.
-/

namespace Murmur3

open Bytes BitVec

/-- What a word is made into before it goes into the state. -/
@[irreducible] def scramble (k : BitVec 32) : BitVec 32 :=
    (k * 0xcc9e2d51#32).rotateLeft 15 * 0x1b873593#32

@[irreducible] def mix (h k : BitVec 32) : BitVec 32 :=
    (h ^^^ scramble k).rotateLeft 13 * 5#32 + 0xe6546b64#32

/-- The last mixing. -/
def avalanche (h : BitVec 32) : BitVec 32 :=
  let h := (h ^^^ (h >>> 16)) * 0x85ebca6b#32
  let h := (h ^^^ (h >>> 13)) * 0xc2b2ae35#32
  h ^^^ (h >>> 16)

/-- The word of some bytes, the least significant first. -/
def word : List Byte → BitVec 32
  | [] => 0
  | b :: bs => b.setWidth 32 ||| (word bs <<< 8)

/-- The whole words, and the word of what is left. -/
def absorb (h : BitVec 32) : List Byte → BitVec 32
  | a :: b :: c :: d :: bs => absorb (mix h (word [a, b, c, d])) bs
  | tail => h ^^^ scramble (word tail)

def hash (bs : List Byte) : BitVec 32 := avalanche (absorb 0 bs ^^^ BitVec.ofNat 32 bs.length)

/-! ### As a loop -/

/-- The word at an offset. -/
def wordAt (data : List Byte) (i : ℕ) : BitVec 32 :=
  (data.getD i 0).setWidth 32 ||| ((data.getD (i + 1) 0).setWidth 32 <<< 8) |||
    ((data.getD (i + 2) 0).setWidth 32 <<< 16) ||| ((data.getD (i + 3) 0).setWidth 32 <<< 24)

/-- The bytes behind the whole words, as they are collected from the last to the first. -/
def tailWord (data : List Byte) (at' len : ℕ) : BitVec 32 :=
  let k := if 3 ≤ len % 4 then (0 : BitVec 32) ^^^
    ((data.getD (at' + 2) 0).setWidth 32 <<< 16) else 0
  let k := if 2 ≤ len % 4 then k ^^^ ((data.getD (at' + 1) 0).setWidth 32 <<< 8) else k
  if 1 ≤ len % 4 then k ^^^ (data.getD at' 0).setWidth 32 else k

/-- The state behind the whole words of the data. -/
def blocks (data : List Byte) (h : BitVec 32) (nblocks : ℕ) : BitVec 32 :=
  (List.range nblocks).foldl (fun h i => mix h (wordAt data (i * 4))) h

def indexed (data : List Byte) : BitVec 32 :=
  let h := blocks data 0 (data.length / 4)
  let h := if 1 ≤ data.length % 4 then h ^^^ scramble
    (tailWord data (data.length / 4 * 4) data.length) else h
  avalanche (h ^^^ BitVec.ofNat 32 data.length)

@[simp] theorem scramble_zero : scramble 0 = 0 := by decide +kernel

theorem wordAt_zero (a b c d : Byte) (bs : List Byte) :
    wordAt (a :: b :: c :: d :: bs) 0 = word [a, b, c, d] := by
  simp [wordAt, word, BitVec.shiftLeft_or_distrib, ← BitVec.shiftLeft_add, BitVec.or_assoc]

theorem wordAt_cons (a b c d : Byte) (bs : List Byte) (i : ℕ) :
    wordAt (a :: b :: c :: d :: bs) (i + 4) = wordAt bs i := by
  simp [wordAt]

theorem blocks_succ (a b c d : Byte) (bs : List Byte) (h : BitVec 32) (n : ℕ) :
    blocks (a :: b :: c :: d :: bs) h (n + 1) = blocks bs (mix h (word [a, b, c, d])) n := by
  unfold blocks
  rw [List.range_succ_eq_map, List.foldl_cons, Nat.zero_mul, wordAt_zero, List.foldl_map]
  refine List.foldl_ext _ _ _ fun h' i _ => ?_
  rw [Nat.succ_mul, wordAt_cons]

theorem tailWord_cons (a b c d : Byte) (bs : List Byte) (i len : ℕ) :
    tailWord (a :: b :: c :: d :: bs) (i + 4) (len + 4) = tailWord bs i len := by
  simp [tailWord]

/-- The disjoint bytes of a word may as well be added or xored. -/
theorem setWidth_or_shift (a : Byte) (w : BitVec 32) :
    a.setWidth 32 ||| (w <<< 8) = (w <<< 8) ^^^ a.setWidth 32 := by
  refine eq_of_getLsbD_eq fun i hi => ?_
  simp only [getLsbD_or, getLsbD_xor, getLsbD_setWidth, getLsbD_shiftLeft]
  by_cases h : i < 8
  · simp [h]
  · simp [h, getLsbD_of_ge a i (not_lt.mp h)]

theorem word_nil : word [] = 0 := rfl

theorem word_cons (a : Byte) (bs : List Byte) :
    word (a :: bs) = (word bs <<< 8) ^^^ a.setWidth 32 :=
  setWidth_or_shift a (word bs)

theorem tailWord_eq {tail : List Byte} (h : tail.length < 4) :
    tailWord tail 0 tail.length = word tail := by
  match tail, h with
  | [], _ => rfl
  | [a], _ => simp [tailWord, word_nil, word_cons]
  | [a, b], _ => simp [tailWord, word_nil, word_cons]
  | [a, b, c], _ =>
    simp [tailWord, word_nil, word_cons, shiftLeft_xor_distrib, ← BitVec.shiftLeft_add]

theorem absorb_short {tail : List Byte} (hlt : tail.length < 4) (h : BitVec 32) :
    absorb h tail = h ^^^ scramble (word tail) := by
  match tail, hlt with
  | [], _ | [_], _ | [_, _], _ | [_, _, _], _ => simp only [absorb]

/-- The loop and what follows it absorb the bytes. -/
theorem absorb_eq : (data : List Byte) → (h : BitVec 32) → absorb h data =
    blocks data h (data.length / 4) ^^^ scramble (tailWord data (data.length / 4 * 4) data.length)
  | a :: b :: c :: d :: bs, h => by
    have ih := absorb_eq bs (mix h (word [a, b, c, d]))
    have hdiv : (bs.length + 4) / 4 = bs.length / 4 + 1 := by omega
    have hlen : (a :: b :: c :: d :: bs).length = bs.length + 4 := rfl
    rw [absorb, ih, hlen, hdiv, blocks_succ, Nat.succ_mul, tailWord_cons]
  | [], h | [_], h | [_, _], h | [_, _, _], h => by
    rw [absorb_short (by simp)]
    -- fewer than four bytes are left
    rw [Nat.div_eq_of_lt (by simp), Nat.zero_mul, tailWord_eq (by simp)]
    rfl

/-- **The loop** computes the hash. -/
theorem indexed_eq_hash (data : List Byte) : indexed data = hash data := by
  have htail : (if 1 ≤ data.length % 4 then blocks data 0 (data.length / 4) ^^^
        scramble (tailWord data (data.length / 4 * 4) data.length) else blocks data 0
          (data.length / 4)) =
      absorb 0 data := by
    rw [absorb_eq]
    split
    · rfl
    · next h =>
      -- nothing is left, and nothing scrambles to nothing
      have hlen : data.length % 4 = 0 := by omega
      have hzero : tailWord data (data.length / 4 * 4) data.length = 0 := by simp [tailWord, hlen]
      rw [hzero, scramble_zero]
      exact xor_zero.symm
  unfold indexed hash
  dsimp only
  rw [htail]

end Murmur3
