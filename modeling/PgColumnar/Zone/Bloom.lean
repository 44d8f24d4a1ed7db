import PgColumnar.Lib.Bitmap

/-!
# Bloom filters of row groups

A row group keeps for each hashable column a bit set with six bits set for the hash of each of its
values.  An equality predicate leaves the group out if a bit of its constant's hash is not set.

## Main definitions

* `bloomBuild`, `bloomProbe` — a filter, and its test.
* `bloomExcludes` — the test of a group.

## Main results

* `bloomProbe_build` — what was added is found.
* `bloom_sound` — no false negatives, and no read outside.
-/

namespace PgColumnar.Bloom

open Bytes List

abbrev Hash := BitVec 32

def bloomBitsPerValue : ℕ := 10

def bloomK : ℕ := 6

def bloomMinBits : ℕ := 64

def bloomMaxBits : ℕ := 2 ^ 21

/-- The loop of `next_pow2`, with so many doublings left. -/
def nextPow2Loop (x : ℕ) : ℕ → ℕ → ℕ
  | 0, p => p
  | k + 1, p => if p < x ∧ p < bloomMaxBits then nextPow2Loop x k (2 * p) else p

/-- `next_pow2`: 15 doublings of the least size are the greatest. -/
def nextPow2 (x : ℕ) : ℕ := nextPow2Loop x 15 bloomMinBits

/-- `bloom_hashes` -/
def bloomHashes (h : Hash) : Hash × Hash := (h, ((h >>> 16) ||| (h <<< 16)) ||| 1)

/-- The positions of a hash in a filter of so many bits. -/
def positions (nbits : BitVec 32) (k : ℕ) (h : Hash) : List ℕ :=
  (List.range k).map fun j =>
    (((bloomHashes h).1 + BitVec.ofNat 32 j * (bloomHashes h).2) &&& (nbits - 1)).toNat

/-- `bloom_distinct_estimate`; `hll` is the estimate of the HyperLogLog state, without its
fraction. -/
def bloomDistinctEstimate (hll : List Hash → ℕ) (hashes : List Hash) : ℕ :=
  min (max 1 (hll hashes)) hashes.length

/-- `PgColumnarBloomBuild` -/
def bloomBuild (hll : List Hash → ℕ) (hashes : List Hash) : Option (List Byte) :=
  if hashes.length < 64 then none
  else if bloomMaxBits < bloomDistinctEstimate hll hashes * bloomBitsPerValue then none
  else
    let nbits := nextPow2 (bloomDistinctEstimate hll hashes * bloomBitsPerValue)
    some (leBytes 4 nbits ++ BitVec.ofNat 8 bloomK ::
      (hashes.flatMap (positions (BitVec.ofNat 32 nbits) bloomK)).foldl setBit (zeros (nbits / 8)))

/-- The loop of the probe; `none` is a read outside the bits. -/
def probeLoop (bits : List Byte) : List ℕ → Option Bool
  | [] => some true
  | pos :: ps =>
    match bits[pos / 8]? with
    | none => none
    | some b => if b.getLsbD (pos % 8) then probeLoop bits ps else some false

def header (bloom : List Byte) : BitVec 32 := BitVec.ofNat 32 (leNat (bloom.take 4))

/-- No header, a number of bits that is not a power of two, or too few bytes for it. -/
def Malformed (bloom : List Byte) : Prop :=
  bloom.length < 5 ∨ (header bloom = 0 ∨ header bloom &&& (header bloom - 1) ≠ 0) ∨
    bloom.length < 5 + ((header bloom).toNat + 7) / 8

instance (bloom : List Byte) : Decidable (Malformed bloom) := inferInstanceAs (Decidable (_ ∨ _))

/-- `PgColumnarBloomProbe` -/
def bloomProbe (bloom : List Byte) (hash : Hash) : Option Bool :=
  if Malformed bloom then some true
  else probeLoop (bloom.drop 5) (positions (header bloom) (bloom.getD 4 0).toNat hash)

/-! ### The test of a group -/

/-- What a column's type and collation bring, and the hash of a value under the collation. -/
structure Column (δ : Type) where
  hasHashProc : Bool
  deterministic : Bool
  hashFn : δ → Hash

/-- An equality or another comparison with a constant, or with the values of an array.  A constant
of another type is compared by a procedure for the two types. -/
structure Predicate (δ : Type) where
  isEqual : Bool
  crossType : Bool
  probes : List δ

variable {δ : Type}

/-- `bloomable`, with the session's setting. -/
def Column.bloomable (col : Column δ) (enabled : Bool) : Bool :=
  enabled && col.hasHashProc && col.deterministic

def Predicate.hasHash (pred : Predicate δ) (col : Column δ) : Bool :=
  !pred.crossType && pred.isEqual && col.hasHashProc && col.deterministic

/-- The filter that a row group gets: over the hashes of the values of its chunks that are not
null. -/
def groupFilter (hll : List Hash → ℕ) (enabled : Bool) (col : Column δ) (chunks : List (List δ)) :
    Option (List Byte) :=
  if col.bloomable enabled && !(chunks.flatMap fun c => c.map col.hashFn).isEmpty then
    bloomBuild hll (chunks.flatMap fun c => c.map col.hashFn)
  else none

/-- The loop over the constants: whether one of them may be there. -/
def mayMatchLoop (bloom : List Byte) : List Hash → Option Bool
  | [] => some false
  | h :: hs =>
    match bloomProbe bloom h with
    | none => none
    | some true => some true
    | some false => mayMatchLoop bloom hs

/-- The bloom test of `pgcolumnar_group_can_match`: whether the group is left out. -/
def bloomExcludes (enabled : Bool) (col : Column δ) (pred : Predicate δ)
    (bloom : Option (List Byte)) :
    Option Bool :=
  if pred.isEqual && enabled && pred.hasHash col then
    match bloom with
    | none => some false
    | some bloom => (mayMatchLoop bloom (pred.probes.map col.hashFn)).map (!·)
  else some false

/-! ### Sizes and positions -/

theorem nextPow2Loop_pow (x k e : ℕ) :
    ∃ e', e ≤ e' ∧ e' ≤ e + k ∧ nextPow2Loop x k (2 ^ e) = 2 ^ e' := by
  induction k generalizing e with
  | zero => exact ⟨e, le_rfl, le_rfl, rfl⟩
  | succ k ih =>
    rw [nextPow2Loop]
    split_ifs
    · obtain ⟨e', h₁, h₂, h₃⟩ := ih (e + 1)
      rw [← pow_succ', h₃]
      exact ⟨e', by omega, by omega, rfl⟩
    · exact ⟨e, le_rfl, by omega, rfl⟩

theorem nextPow2_pow (x : ℕ) : ∃ e, 6 ≤ e ∧ e ≤ 21 ∧ nextPow2 x = 2 ^ e := nextPow2Loop_pow x 15 6

theorem toNat_ofNat_pow {e : ℕ} (he : e ≤ 21) : (BitVec.ofNat 32 (2 ^ e)).toNat = 2 ^ e := by
  rw [BitVec.toNat_ofNat]
  exact Nat.mod_eq_of_lt (Nat.pow_lt_pow_right (by decide) (by omega))

/-- A position is below the number of bits, which are not none. -/
theorem lt_of_mem_positions {nbits : BitVec 32} (hne : nbits ≠ 0) {k : ℕ} {h : Hash} {pos : ℕ}
    (hpos : pos ∈ positions nbits k h) : pos < nbits.toNat := by
  obtain ⟨j, -, rfl⟩ := mem_map.mp hpos
  have hpos : 0 < nbits.toNat := Nat.pos_of_ne_zero fun h0 => hne (BitVec.eq_of_toNat_eq h0)
  have hsub : (nbits - 1).toNat = nbits.toNat - 1 := by
    have hle : (1 : BitVec 32) ≤ nbits := hpos
    rw [BitVec.toNat_sub_of_le hle]
    rfl
  rw [BitVec.toNat_and, hsub]
  exact Nat.lt_of_le_of_lt Nat.and_le_right (by omega)

/-! ### The probe -/

theorem probeLoop_eq {bits : List Byte} {ps : List ℕ} (h : ∀ p ∈ ps, p / 8 < bits.length) :
    probeLoop bits ps = some (ps.all (bitAt bits)) := by
  induction ps with
  | nil => rfl
  | cons p ps ih =>
    have hp := h p mem_cons_self
    rw [probeLoop, getElem?_eq_getElem hp, all_cons, bitAt, getD_eq_getElem _ _ hp]
    dsimp only
    split_ifs with hbit
    · rw [ih fun q hq => h q (mem_cons_of_mem p hq), hbit, Bool.true_and]
    · rw [Bool.eq_false_of_not_eq_true hbit, Bool.false_and]

variable {bloom : List Byte}

/-- A filter that is not malformed answers by its bits. -/
theorem bloomProbe_eq (h : ¬ Malformed bloom) (hash : Hash) :
    bloomProbe bloom hash = some ((positions (header bloom) (bloom.getD 4 0).toNat hash).all
      (bitAt (bloom.drop 5))) := by
  rw [bloomProbe, if_neg h]
  apply probeLoop_eq
  intro p hp
  rw [Malformed, not_or, not_or, not_or] at h
  obtain ⟨-, ⟨hne, -⟩, hlen⟩ := h
  have := lt_of_mem_positions hne hp
  rw [length_drop]
  omega

theorem bloomProbe_of_malformed (h : Malformed bloom) (hash : Hash) :
    bloomProbe bloom hash = some true := if_pos h

theorem bloomProbe_ne_none (bloom : List Byte) (hash : Hash) : bloomProbe bloom hash ≠ none := by
  by_cases h : Malformed bloom
  · rw [bloomProbe_of_malformed h]
    exact Option.some_ne_none _
  · rw [bloomProbe_eq h]
    exact Option.some_ne_none _

variable {hll : List Hash → ℕ}

/-- **A filter finds every hash that it was built over.** -/
theorem bloomProbe_build {hashes : List Hash}
    (hbuild : bloomBuild hll hashes = some bloom) {h : Hash} (hmem : h ∈ hashes) :
    bloomProbe bloom h = some true := by
  unfold bloomBuild at hbuild
  split_ifs at hbuild
  obtain ⟨e, h6, h21, hpow⟩ := nextPow2_pow (bloomDistinctEstimate hll hashes * bloomBitsPerValue)
  rw [hpow, Option.some.injEq] at hbuild
  have hnat := toNat_ofNat_pow h21
  have hheader : header bloom = BitVec.ofNat 32 (2 ^ e) := by
    rw [header, ← hbuild, take_left' (length_leBytes 4 _), leNat_leBytes_of_lt]
    exact Nat.lt_of_le_of_lt (Nat.pow_le_pow_right (by decide) h21) (by decide)
  have hne : BitVec.ofNat 32 (2 ^ e) ≠ 0 := by
    intro h0
    rw [h0] at hnat
    exact absurd hnat (Nat.pow_pos (by decide)).ne
  have hk : bloom.getD 4 0 = BitVec.ofNat 8 bloomK := by
    rw [← hbuild, getD_append_right _ _ _ _ (length_leBytes 4 _).le, length_leBytes]
    rfl
  set bits := (hashes.flatMap (positions (BitVec.ofNat 32 (2 ^ e)) bloomK)).foldl setBit
    (zeros (2 ^ e / 8))
    with hbits
  have hdrop : bloom.drop 5 = bits := by
    have hsplit : bloom.drop 5 = (bloom.drop 4).drop 1 := by rw [drop_drop]
    rw [hsplit, ← hbuild, drop_left' (length_leBytes 4 _)]
    rfl
  have hwhole : 8 * (2 ^ e / 8) = 2 ^ e :=
    Nat.mul_div_cancel' (pow_dvd_pow 2 (Nat.le_trans (by decide : 3 ≤ 6) h6))
  by_cases hmal : Malformed bloom
  · exact bloomProbe_of_malformed hmal h
  rw [bloomProbe_eq hmal, hheader, hk, hdrop, Option.some.injEq, all_eq_true]
  intro p hp
  -- every position is inside the bits, so that each of them was set
  have hin : ∀ q ∈ hashes.flatMap (positions (BitVec.ofNat 32 (2 ^ e)) bloomK),
      q < 8 * (zeros (2 ^ e / 8)).length := by
    intro q hq
    obtain ⟨h', -, hq⟩ := mem_flatMap.mp hq
    rw [length_zeros, hwhole, ← hnat]
    exact lt_of_mem_positions hne hq
  rw [hbits, bitAt_foldl_setBit hin, Bool.or_eq_true, decide_eq_true_eq]
  exact .inr (mem_flatMap.mpr ⟨h, hmem, hp⟩)

/-! ### Groups that are left out -/

/-- A loop that finds nothing has probed all constants. -/
theorem not_found_of_mayMatchLoop {hs : List Hash}
    (h : mayMatchLoop bloom hs = some false) : ∀ x ∈ hs, bloomProbe bloom x = some false := by
  induction hs with
  | nil => exact forall_mem_nil _
  | cons y hs ih =>
    rw [mayMatchLoop] at h
    cases hy : bloomProbe bloom y with
    | none =>
      rw [hy] at h
      cases h
    | some found =>
      rw [hy] at h
      cases found with
      | true => cases h
      | false => exact forall_mem_cons.mpr ⟨hy, ih h⟩

/-- **A group that is left out holds no value that the predicate looks for**, if equal values have
equal hashes. -/
theorem bloomExcludes_sound {built enabled : Bool} {col : Column δ}
    {pred : Predicate δ} {chunks : List (List δ)} {eq : δ → δ → Bool}
    (hlawful : ∀ v c, eq v c = true → col.hashFn v = col.hashFn c)
    (h : bloomExcludes enabled col pred (groupFilter hll built col chunks) = some true) :
    ∀ c ∈ chunks, ∀ v ∈ c, ∀ probe ∈ pred.probes, eq v probe = false := by
  intro c hc v hv probe hprobe
  unfold bloomExcludes groupFilter at h
  split_ifs at h with htest hbloom
  · cases hbuild : bloomBuild hll (chunks.flatMap fun c => c.map col.hashFn) with
    | none =>
      rw [hbuild] at h
      cases h
    | some bloom =>
      rw [hbuild] at h
      obtain ⟨found, hloop, hnot⟩ := Option.map_eq_some_iff.mp h
      cases found with
      | true => cases hnot
      | false =>
        have habsent := not_found_of_mayMatchLoop hloop _ (mem_map_of_mem hprobe)
        rw [Bool.eq_false_iff]
        intro heq
        have hthere := bloomProbe_build hbuild (mem_flatMap.mpr ⟨c, hc, mem_map_of_mem hv⟩)
        rw [hlawful v probe heq, habsent] at hthere
        cases hthere
  · cases h
  · cases h

/-- **A filter has no false negatives**, a malformed one leaves nothing out, and none is read
outside its bytes. -/
theorem bloom_sound : (∀ hll hashes bloom, bloomBuild hll hashes = some bloom →
      ∀ h ∈ hashes, bloomProbe bloom h = some true) ∧
    (∀ bloom hash, bloomProbe bloom hash ≠ none ∧
      (Malformed bloom → bloomProbe bloom hash = some true)) ∧
    ∀ (δ : Type) hll built enabled (col : Column δ) (pred : Predicate δ) chunks (eq : δ → δ → Bool),
      (∀ v c, eq v c = true → col.hashFn v = col.hashFn c) →
      bloomExcludes enabled col pred (groupFilter hll built col chunks) = some true →
      ∀ c ∈ chunks, ∀ v ∈ c, ∀ probe ∈ pred.probes, eq v probe = false :=
  ⟨fun _ _ _ hbuild _ hmem => bloomProbe_build hbuild hmem,
    fun bloom hash => ⟨bloomProbe_ne_none bloom hash, fun h => bloomProbe_of_malformed h hash⟩,
    fun _ _ _ _ _ _ _ _ hlawful h => bloomExcludes_sound hlawful h⟩

/-- A column of numbers that are their own hashes. -/
def hashedColumn : Column Hash where
  hasHashProc := true
  deterministic := true
  hashFn := id

/-- Of a group of 64 ones the filter leaves out the test for 2. -/
theorem bloom_sound_sixtyFourOnes :
    bloomExcludes true hashedColumn ⟨true, false, [2]⟩
        (groupFilter (fun _ => 1) true hashedColumn [replicate 64 1]) = some true ∧
      ∀ c ∈ [replicate 64 (1 : Hash)], ∀ v ∈ c, ∀ probe ∈ [(2 : Hash)], (v == probe) = false := by
  have hexcluded : bloomExcludes true hashedColumn ⟨true, false, [2]⟩
      (groupFilter (fun _ => 1) true hashedColumn [replicate 64 1]) = some true := by decide +kernel
  exact ⟨hexcluded, bloom_sound.2.2 Hash (fun _ => 1) true true hashedColumn ⟨true, false, [2]⟩
    [replicate 64 1] (· == ·) (fun v c h => eq_of_beq h) hexcluded⟩

/-- 64 bits of which none is set. -/
def emptyFilter : List Byte := [64, 0, 0, 0, 6, 0, 0, 0, 0, 0, 0, 0, 0]

theorem bloomProbe_emptyFilter (h : Hash) : bloomProbe emptyFilter h = some false := by
  have hbits : emptyFilter.drop 5 = zeros 8 := rfl
  have hk : (emptyFilter.getD 4 0).toNat = 5 + 1 := rfl
  rw [bloomProbe_eq (by decide), hbits, hk, positions, range_succ_eq_map, map_cons, all_cons,
    bitAt_zeros, Bool.false_and]

/-- It is built over no hashes, and finds none. -/
theorem not_found_of_notBuilt : (∀ hll hashes, bloomBuild hll hashes ≠ some emptyFilter) ∧
    bloomProbe emptyFilter 0 = some false := by
  refine ⟨fun hll hashes hbuild => ?_, bloomProbe_emptyFilter 0⟩
  cases hashes with
  | nil => cases hbuild
  | cons h hashes =>
    have hfound := bloomProbe_build hbuild mem_cons_self
    rw [bloomProbe_emptyFilter] at hfound
    cases hfound

end PgColumnar.Bloom
