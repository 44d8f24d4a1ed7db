import PgColumnar.Parquet.Schema
import PgColumnar.Thrift.Footer

/-!
# The leaves of a parsed footer

The walk that derives the leaves when a footer is parsed, and the one over elements whose
numbers are read already, find the same leaves: what is bound to the columns is what the
parser found in the file.

## Main definitions

* `Describes raw e`, `Carries raw leaf`: a parsed element or leaf, and the same with its
  numbers read.

## Main results

* `fileLeaves_of_walkLeaves`: the leaves of an accepted footer are `fileLeaves` of its elements.
-/

namespace PgColumnar.Parquet

open Dremel List

def Repetition.number : Repetition → ℤ
  | .required => 0
  | .optional => 1
  | .repeated => 2

/-- `PQ_TYPE_*` -/
def PhysType.number : PhysType → ℤ
  | .boolean => 0
  | .int32 => 1
  | .int64 => 2
  | .int96 => 3
  | .float => 4
  | .double => 5
  | .byteArray => 6
  | .fixedLenByteArray => 7

/-- What a plan reads of a parsed element. -/
structure DescribesLeaf (raw : Thrift.PqSchemaCol) (sc : PqSchemaCol) : Prop where
  physType : raw.physType = sc.physType.number
  convertedType : raw.convertedType = sc.convertedType
  timeUnit : raw.timeUnit = sc.timeUnit
  isTimestamp : raw.isTimestamp = sc.isTimestamp
  adjustedUtc : raw.adjustedUtc = sc.adjustedUtc
  isUnsigned : raw.isUnsigned = sc.isUnsigned
  typeLength : raw.typeLength = sc.typeLength
  scale : raw.scale = sc.scale
  precision : raw.precision = sc.precision

/-- A group has no type. -/
structure Describes (raw : Thrift.PqSchemaCol) (e : SchemaElem) : Prop where
  repetition : raw.repetition = Repetition.number e.repetition
  numChildren : raw.numChildren = e.numChildren
  leaf : e.numChildren = 0 → DescribesLeaf raw e.sc

structure Carries (raw : Thrift.PqLeafInfo) (leaf : PqLeafInfo) : Prop where
  sc : DescribesLeaf raw.sc leaf.sc
  maxDef : raw.maxDef = leaf.maxDef
  maxRep : raw.maxRep = leaf.maxRep

/-- From a parser's state to the next, a walk over the elements `es` finds the same leaves, and
leaves the same elements. -/
def Alike (s s' : List Thrift.PqSchemaCol × List Thrift.PqLeafInfo) (es : List SchemaElem)
    (found : Option (List PqLeafInfo × List SchemaElem)) : Prop :=
  ∃ leaves es' new, found = some (leaves, es') ∧ Forall₂ Describes s'.1 es' ∧
    es'.length ≤ es.length ∧ s'.2 = s.2 ++ new ∧ Forall₂ Carries new leaves

theorem walkChildren_alike {size : ℕ}
    {walk : List Thrift.PqSchemaCol × List Thrift.PqLeafInfo →
      Except Thrift.Raise (Option (List Thrift.PqSchemaCol × List Thrift.PqLeafInfo))}
    {walk' : List SchemaElem → Option (List PqLeafInfo × List SchemaElem)}
    (h : ∀ s s' es, es.length ≤ size → Forall₂ Describes s.1 es → walk s = .ok (some s') →
      Alike s s' es (walk' es)) (n : ℕ) (s s' : List Thrift.PqSchemaCol × List Thrift.PqLeafInfo)
    (es : List SchemaElem) (hsize : es.length ≤ size) (hes : Forall₂ Describes s.1 es)
    (hwalk : Thrift.walkChildren walk n s = .ok (some s')) :
    Alike s s' es (walkChildren walk' n es) := by
  induction n generalizing s es with
  | zero =>
    cases hwalk
    exact ⟨[], es, [], rfl, hes, le_rfl, (append_nil _).symm, .nil⟩
  | succ n ih =>
    rw [Thrift.walkChildren] at hwalk
    split at hwalk
    · cases hwalk
    · cases hwalk
    · next mid hmid =>
      obtain ⟨leaves, es₁, new, hfirst, hes₁, hlen, hnew, hcarries⟩ := h s mid es hsize hes hmid
      obtain ⟨more, es₂, new', hmore, hes₂, hlen', hnew', hcarries'⟩ :=
        ih mid es₁ (hlen.trans hsize) hes₁ hwalk
      refine ⟨leaves ++ more, es₂, new ++ new', ?_, hes₂, hlen'.trans hlen, ?_,
        rel_append hcarries hcarries'⟩
      · simp [walkChildren, hfirst, hmore]
      · rw [hnew', hnew, append_assoc]

/-- The parser's walk may go as deep as its stack; ours needs no more fuel than there are
elements, of which each level takes one. -/
theorem walkSchema_alike (depth : ℕ) : ∀ (fuel d r level : ℕ)
    (s s' : List Thrift.PqSchemaCol × List Thrift.PqLeafInfo) (es : List SchemaElem),
    es.length < fuel → Forall₂ Describes s.1 es →
      Thrift.walkSchema depth d r level s = .ok (some s') →
        Alike s s' es (walkSchema fuel d r es) := by
  induction depth with
  | zero =>
    intro fuel d r level s s' es _ _ hwalk
    cases hwalk
  | succ depth ih =>
    intro fuel d r level s s' es hfuel hes hwalk
    obtain ⟨fuel, rfl⟩ := Nat.exists_eq_succ_of_ne_zero (Nat.ne_zero_of_lt hfuel)
    obtain ⟨raws, found⟩ := s
    unfold Thrift.walkSchema at hwalk
    cases hes with
    | nil => cases hwalk
    | @cons raw e raws es he hrest =>
      have hd : (if raw.repetition = 1 ∨ raw.repetition = 2 then 1 else 0) =
          (if e.repetition = .optional then 1 else 0) + if e.repetition = .repeated then 1
            else 0 := by
        rw [he.repetition]
        cases e.repetition <;> rfl
      have hr : (if raw.repetition = 2 then 1 else 0) =
        if e.repetition = .repeated then 1 else 0 := by
        rw [he.repetition]
        cases e.repetition <;> rfl
      simp only [hd, hr, he.numChildren, Int.natCast_eq_zero, Int.toNat_natCast, ← Nat.add_assoc]
        at hwalk
      rw [walkSchema]
      by_cases hleaf : e.numChildren = 0
      · rw [if_pos hleaf] at hwalk ⊢
        cases hwalk
        exact ⟨_, es, _, rfl, hrest, Nat.le_succ _, rfl, .cons ⟨he.leaf hleaf, rfl, rfl⟩ .nil⟩
      · rw [if_neg hleaf] at hwalk ⊢
        have hlt : es.length < fuel := Nat.lt_of_succ_lt_succ hfuel
        obtain ⟨leaves, es', new, hfound, hes', hlen, hnew⟩ :=
          walkChildren_alike (fun s s' es' hsize => ih fuel _ _ _ s s' es' (hsize.trans_lt hlt))
            e.numChildren _ s' es le_rfl hrest hwalk
        exact ⟨leaves, es', new, hfound, hes', Nat.le_succ_of_le hlen, hnew⟩

/-- **The leaves of an accepted footer are those of its elements**, in the same order and with the
same levels. -/
theorem fileLeaves_of_walkLeaves {depth : ℕ} {pf pf' : Thrift.PqFile} {elems : List SchemaElem}
    (helems : Forall₂ Describes pf.elems elems)
    (hwalk : Thrift.walkLeaves depth pf = .ok (some pf')) :
    ∃ leaves, fileLeaves elems = some leaves ∧ Forall₂ Carries pf'.leaves leaves := by
  unfold Thrift.walkLeaves at hwalk
  cases hroots : pf.elems with
  | nil =>
    rw [hroots] at hwalk
    cases hwalk
  | cons raw raws =>
    simp only [hroots] at hwalk helems
    obtain _ | @⟨_, root, _, es, hroot, hes⟩ := helems
    rw [hroot.numChildren, Int.toNat_natCast] at hwalk
    split at hwalk
    · cases hwalk
    split at hwalk
    · cases hwalk
    · cases hwalk
    · next s hs =>
      obtain ⟨leaves, es', new, hfound, -, -, hnew, hcarries⟩ :=
        walkChildren_alike (fun s s' es' hsize =>
          walkSchema_alike depth (es.length + 1) 0 0 1 s s' es' (Nat.lt_succ_of_le hsize))
          root.numChildren _ s es le_rfl hes hs
      rw [nil_append] at hnew
      split_ifs at hwalk with hne
      · cases hwalk
      cases hwalk
      have hsome : leaves ≠ [] := by
        rintro rfl
        exact hne (hnew.trans (forall₂_nil_right_iff.mp hcarries))
      refine ⟨leaves, by simp [fileLeaves, hfound, hsome], ?_⟩
      rw [← hnew] at hcarries
      exact hcarries

end PgColumnar.Parquet
