import PgColumnar.Zone.Write

/-!
# Skipping by least and greatest value

A scan key `column op constant` becomes a predicate, and a vector or a chunk is skipped
when its least and greatest value prove that no value satisfies it
(`native_zone_excludes`).  The constant may be of another type than the column; the
comparison is then the one of the operator family for the two types.

## Main definitions

* `nativeZoneExcludes` — the test of a group or vector.

## Main results

* `zone_sound` — nothing that satisfies the predicate is left out.
-/

namespace PgColumnar.Zone

open Bytes Encoding Compare

/-- The five btree strategies. -/
inductive Strategy where
  | less
  | lessEqual
  | equal
  | greaterEqual
  | greater
  deriving DecidableEq

/-- What the result of a comparison says for the operator. -/
def Strategy.holds (c : ℤ) : Strategy → Prop
  | .less => c < 0
  | .lessEqual => c ≤ 0
  | .equal => c = 0
  | .greaterEqual => 0 ≤ c
  | .greater => 0 < c

/-- The part of `SkipPredicate` that is about values.  A key with `SK_SEARCHARRAY` is
accepted for equality only. -/
structure Predicate (β : Type*) where
  strategy : Strategy
  compareValue : β
  searchArray : Bool
  arrayValues : List β
  array_equal : searchArray = true → strategy = .equal

variable {α β ε : Type*}

/-- The test on the decoded extremes. -/
def extremesExclude (cmpFn : α → β → ℤ) (pred : Predicate β) (minv maxv : α) : Bool :=
  if pred.searchArray then
    !pred.arrayValues.any fun v => decide (cmpFn minv v ≤ 0) && decide (0 ≤ cmpFn maxv v)
  else
    match pred.strategy with
    | .less => decide (0 ≤ cmpFn minv pred.compareValue)
    | .lessEqual => decide (0 < cmpFn minv pred.compareValue)
    | .equal => decide (0 < cmpFn minv pred.compareValue) ||
      decide (cmpFn maxv pred.compareValue < 0)
    | .greaterEqual => decide (cmpFn maxv pred.compareValue < 0)
    | .greater => decide (cmpFn maxv pred.compareValue ≤ 0)

/-- `native_zone_excludes` for a predicate that is not about ranges. -/
def nativeZoneExcludes (codec : ValueCodec α) (cmpFn : α → β → ℤ) (pred : Predicate β)
    (z : Option ZoneMap) : Except Fault Bool :=
  match z.bind (·.minMax) with
  | none => .ok false
  | some (minimum, maximum) =>
    match codec.decode minimum, codec.decode maximum with
    | .ok minv, .ok maxv => .ok (extremesExclude cmpFn pred minv maxv)
    | .error e, _ => .error e
    | _, .error e => .error e

/-- The value satisfies the predicate, given the operators. -/
def Predicate.Satisfies (op : Strategy → α → β → Prop) (pred : Predicate β) (v : α) : Prop :=
  if pred.searchArray then ∃ b ∈ pred.arrayValues, op pred.strategy v b
  else op pred.strategy v pred.compareValue

/-- The operators of the family are those of its comparison. -/
def OperatorsAgree (op : Strategy → α → β → Prop) (cmpFn : α → β → ℤ) : Prop :=
  ∀ st a b, op st a b ↔ st.holds (cmpFn a b)

variable {cmp : α → α → ℤ} {cmpFn : α → β → ℤ} {op : Strategy → α → β → Prop} {vals : List α}
  {pred : Predicate β}

/-- Between two values that compare on the wrong sides there is no value that compares
right. -/
theorem not_satisfies_of_extremesExclude {minv maxv v : α} (hlo : cmp minv v ≤ 0)
    (hhi : cmp v maxv ≤ 0) (hcross : Agrees cmp cmpFn) (hop : OperatorsAgree op cmpFn)
    (hex : extremesExclude cmpFn pred minv maxv = true) :
    ¬ pred.Satisfies op v := by
  unfold extremesExclude at hex
  unfold Predicate.Satisfies
  cases harr : pred.searchArray with
  | true =>
    rw [harr, if_pos rfl, Bool.not_eq_true', List.any_eq_false] at hex
    rw [if_pos rfl, pred.array_equal harr]
    rintro ⟨b, hmem, hb⟩
    have heq : cmpFn v b = 0 := (hop .equal v b).mp hb
    apply hex b hmem
    rw [Bool.and_eq_true, decide_eq_true_eq, decide_eq_true_eq]
    exact ⟨hcross.nonpos hlo (le_of_eq heq), hcross.nonneg hhi (le_of_eq heq.symm)⟩
  | false =>
    rw [harr, if_neg (by simp)] at hex
    rw [if_neg (by simp), hop]
    cases hst : pred.strategy with
    | less =>
      rw [hst] at hex
      exact not_lt.mpr (hcross.nonneg hlo (of_decide_eq_true hex))
    | lessEqual =>
      rw [hst] at hex
      exact not_le.mpr (hcross.pos hlo (of_decide_eq_true hex))
    | equal =>
      rw [hst] at hex
      rcases Bool.or_eq_true_iff.mp hex with hgt | hlt
      · exact ne_of_gt (hcross.pos hlo (of_decide_eq_true hgt))
      · exact ne_of_lt (hcross.neg hhi (of_decide_eq_true hlt))
    | greaterEqual =>
      rw [hst] at hex
      exact not_le.mpr (hcross.neg hhi (of_decide_eq_true hex))
    | greater =>
      rw [hst] at hex
      exact not_lt.mpr (hcross.nonpos hhi (of_decide_eq_true hex))

variable {codec : ValueCodec α}

/-- A zone map of bounds of the values that excludes the predicate. -/
theorem not_satisfies_of_excludes {m : Option (α × α)}
    (hm : ∀ p ∈ m, Bounds cmp p vals) (hcross : Agrees cmp cmpFn) (hop : OperatorsAgree op cmpFn)
    {z : ZoneMap}
    (hz : z.minMax = m.map fun p => (codec.encode p.1, codec.encode p.2))
    (hex : nativeZoneExcludes codec cmpFn pred (some z) = .ok true) :
    ∀ v ∈ vals, ¬ pred.Satisfies op v := by
  intro v hv
  unfold nativeZoneExcludes at hex
  rw [Option.bind_some, hz] at hex
  cases m with
  | none => cases hex
  | some p =>
    have hb := hm p rfl
    simp only [Option.map_some, codec.decode_encode, Except.ok.injEq] at hex
    exact not_satisfies_of_extremesExclude (hb.lower v hv) (hb.upper v hv) hcross hop hex

/-- A column without a comparison is never skipped. -/
theorem nativeZoneExcludes_none {z : ZoneMap}
    (hz : z.minMax = none) : nativeZoneExcludes codec cmpFn pred (some z) = .ok false := by
  unfold nativeZoneExcludes
  rw [Option.bind_some, hz]

theorem minMax_bufferOf_none {col : ColumnDef α ε} (hcmp : col.cmp = none)
    (rows : List (Option α)) : (bufferOf col rows).minMax = none := by
  induction rows using List.reverseRecOn with
  | nil => rfl
  | append_singleton rows r ih =>
    unfold bufferOf at ih ⊢
    rw [List.foldl_append]
    cases r with
    | none => exact ih
    | some v =>
      simpa [ColumnBuffer.add, hcmp] using ih

/-- **Zone maps are sound.**  The comparison of the column's type is a total order, the
comparison with the constant's type follows it, and the operators are those of the
comparison.  Then no value of a vector whose stored zone map excludes the predicate
satisfies it, and no value of a chunk. -/
theorem zone_sound (col : ColumnDef α ε) (cmpFn : α → β → ℤ) (op : Strategy → α → β → Prop)
    (htotal : ∀ cmp ∈ col.cmp, TotalCmp cmp) (hfast : FastCmpOk col)
    (hcross : ∀ cmp ∈ col.cmp, Agrees cmp cmpFn) (hop : OperatorsAgree op cmpFn)
    (written read : Bool) (vectors : List (List (Option α))) (pred : Predicate β) :
    (∀ rows ∈ vectors, nativeZoneExcludes col.codec cmpFn pred
        (some (stored written read (vectorZone col (bufferOf col rows)))) = .ok true →
      ∀ v, some v ∈ rows → ¬ pred.Satisfies op v) ∧
    (nativeZoneExcludes col.codec cmpFn pred
        (some (stored written read (chunkZone col (vectors.map (bufferOf col))))) = .ok true →
      ∀ rows ∈ vectors, ∀ v, some v ∈ rows → ¬ pred.Satisfies op v) := by
  cases hcmp : col.cmp with
  | none =>
    constructor
    · intro rows _ hex
      rw [nativeZoneExcludes_none] at hex
      · cases hex
      · rw [stored_minMax]
        show (bufferOf col rows).minMax.map _ = none
        rw [minMax_bufferOf_none hcmp]
        rfl
    · intro hex
      rw [nativeZoneExcludes_none] at hex
      · cases hex
      · rw [stored_minMax]
        show (chunkMinMax col _).map _ = none
        unfold chunkMinMax
        rw [hcmp]
        rfl
  | some cmp =>
    have hc := htotal cmp hcmp
    constructor
    · intro rows _ hex v hv
      refine not_satisfies_of_excludes (minMax_bufferOf hcmp hc hfast rows).2 (hcross cmp hcmp) hop
        ?_ hex v (List.mem_filterMap.mpr ⟨some v, hv, rfl⟩)
      rw [stored_minMax]
      rfl
    · intro hex rows hrows v hv
      refine not_satisfies_of_excludes (extremes_chunkMinMax hcmp hc hfast vectors).2
        (hcross cmp hcmp) hop ?_ hex v
        (List.mem_filterMap.mpr ⟨some v, List.mem_flatten.mpr ⟨rows, hrows, hv⟩, rfl⟩)
      rw [stored_minMax]
      rfl

/-! An `int4` column, compared with an `int8` constant. -/

def int4Attribute : Attribute := Encoding.int4Attribute

theorem isStored_int4 (n : ℕ) : IsStored int4Attribute (leBytes 4 n) :=
  ⟨.inl ⟨by decide, by rw [length_leBytes]; rfl⟩, fun _ => by decide, fun h => absurd h (by decide)⟩

def int4Codec : ValueCodec (BitVec 32) where
  encode v := leBytes 4 v.toNat
  decode bs := (decodeValue int4Attribute bs).map fun r => BitVec.ofNat 32 (leNat r.1)
  decode_encode v := by
    have hdec := decodeValue_append (isStored_int4 v.toNat) []
    rw [List.append_nil] at hdec
    rw [hdec]
    show Except.ok (BitVec.ofNat 32 (leNat (leBytes 4 v.toNat))) = _
    rw [leNat_leBytes_of_lt v.isLt, BitVec.ofNat_toNat, BitVec.setWidth_eq]
  encode_ne_nil v := (isStored_int4 v.toNat).ne_nil

/-- `btint4cmp` and `btint48cmp`. -/
def btintCmp (a b : ℤ) : ℤ := if b < a then 1 else if a = b then 0 else -1

theorem btintCmp_sign (a b : ℤ) : (btintCmp a b).sign = (a - b).sign := by
  unfold btintCmp
  split
  · next h => rw [Int.sign_eq_one_of_pos (show 0 < a - b by omega)]; rfl
  · split
    · next h => rw [show a - b = 0 by omega]
    · rw [Int.sign_eq_neg_one_of_neg (show a - b < 0 by omega)]; rfl

def int4Column : ColumnDef (BitVec 32) Unit where
  codec := int4Codec
  cmp := some fun a b => btintCmp a.toInt b.toInt
  fastCmp := some BitVec.toInt
  range := none

/-- `column > 10::int8` on the values 5 and -3. -/
theorem zone_sound_int4 :
    nativeZoneExcludes int4Column.codec (fun a (b : BitVec 64) => btintCmp a.toInt b.toInt)
        ⟨.greater, 10, false, [], nofun⟩
        (some (stored true true (chunkZone int4Column
          ([[some 5, none], [some (-3)]].map (bufferOf int4Column))))) = .ok true ∧
      ¬ Predicate.Satisfies (α := BitVec 32) (β := BitVec 64)
        (fun st a b => st.holds (btintCmp a.toInt b.toInt)) ⟨.greater, 10, false, [], nofun⟩ 5 := by
  have hex : nativeZoneExcludes int4Column.codec
      (fun a (b : BitVec 64) => btintCmp a.toInt b.toInt) ⟨.greater, 10, false, [], nofun⟩
      (some (stored true true (chunkZone int4Column
        ([[some 5, none], [some (-3)]].map (bufferOf int4Column))))) = .ok true := by decide +kernel
  refine ⟨hex, ?_⟩
  have hkey : ∀ cmp ∈ int4Column.cmp, ∀ a b, (cmp a b).sign = (a.toInt - b.toInt).sign := by
    intro cmp hcmp a b
    cases hcmp
    exact btintCmp_sign _ _
  refine (zone_sound int4Column (fun a (b : BitVec 64) => btintCmp a.toInt b.toInt)
    (fun st a b => st.holds (btintCmp a.toInt b.toInt)) ?_ ?_ ?_ (fun _ _ _ => Iff.rfl) true true
    [[some 5, none], [some (-3)]] ⟨.greater, 10, false, [], nofun⟩).2 hex [some 5, none] (by simp) 5
    (by simp)
  · exact fun cmp hcmp => totalCmp_of_key (hkey cmp hcmp)
  · intro key hk cmp hcmp a b
    cases hk
    exact hkey cmp hcmp a b
  · exact fun cmp hcmp => agrees_of_key (hkey cmp hcmp) fun a b => btintCmp_sign _ _

end PgColumnar.Zone
