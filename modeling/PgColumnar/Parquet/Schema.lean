import Mathlib.Data.Option.Basic
import PgColumnar.Lib.Dremel
import PgColumnar.Parquet.Plan

/-!
# Binding columns to the leaves of a nested schema

The schema of a Parquet file lists its elements in pre-order, each with its number of
children.  A walk over it (`columnar_parquet_reader.c`) finds the leaves and their greatest
levels.  The columns that are read are bound to the leaves in order: a scalar column and each
field of a composite one to a leaf that does not repeat, an array to a leaf that repeats once.

## Main definitions

* `walkSchema`, `fileLeaves` — the leaves with their levels.
* `buildImpTargets` — the columns bound to them.

## Main results

* `fileLeaves_eq` — the levels are those of the path.
-/

namespace PgColumnar.Parquet

open Dremel

/-- A schema element.  `pq_bad_repetition` refuses any other repetition, and negative numbers
of children are refused too. -/
structure SchemaElem where
  sc : PqSchemaCol
  repetition : Repetition
  numChildren : ℕ

/-- The loop over the children in `walk_schema`: the leaves, and the elements behind. -/
def walkChildren {κ : Type} (walk : List SchemaElem → Option (List κ × List SchemaElem)) :
    ℕ → List SchemaElem → Option (List κ × List SchemaElem)
  | 0, es => some ([], es)
  | n + 1, es => do
    let (leaves, es) ← walk es
    let (more, es) ← walkChildren walk n es
    return (leaves ++ more, es)

/-- `walk_schema`.  The fuel bounds the depth, which is at most the number of elements. -/
def walkSchema : ℕ → ℕ → ℕ → List SchemaElem → Option (List PqLeafInfo × List SchemaElem)
  | 0, _, _, _ => none
  | _ + 1, _, _, [] => none
  | fuel + 1, defn, rep, e :: es =>
    let d := defn + (if e.repetition = .optional then 1 else 0) +
      if e.repetition = .repeated then 1 else 0
    let r := rep + if e.repetition = .repeated then 1 else 0
    if e.numChildren = 0 then some ([⟨e.sc, d, r⟩], es)
    else walkChildren (walkSchema fuel d r) e.numChildren es

/-- The leaves that `parse_file_metadata` derives from the schema; a file without one is
refused. -/
def fileLeaves : List SchemaElem → Option (List PqLeafInfo)
  | [] => none
  | root :: es => do
    let (leaves, _) ← walkChildren (walkSchema (es.length + 1) 0 0) root.numChildren es
    if leaves = [] then none else some leaves

/-! ### Paths -/

/-- The same walk, which notes the path to each leaf. -/
def walkPaths : ℕ → Path → List SchemaElem → Option (List (PqSchemaCol × Path) × List SchemaElem)
  | 0, _, _ => none
  | _ + 1, _, [] => none
  | fuel + 1, p, e :: es =>
    if e.numChildren = 0 then some ([(e.sc, p ++ [e.repetition])], es)
    else walkChildren (walkPaths fuel (p ++ [e.repetition])) e.numChildren es

/-- The leaves of a file, each with the path to it. -/
def filePaths : List SchemaElem → Option (List (PqSchemaCol × Path))
  | [] => none
  | root :: es => do
    let (leaves, _) ← walkChildren (walkPaths (es.length + 1) []) root.numChildren es
    if leaves = [] then none else some leaves

/-- A leaf at the end of a path. -/
def leafAt (leaf : PqSchemaCol × Path) : PqLeafInfo := ⟨leaf.1, maxDef leaf.2, maxRep leaf.2⟩

theorem walkChildren_map {κ μ : Type} {f : κ → μ}
    {walk : List SchemaElem → Option (List κ × List SchemaElem)}
    {walk' : List SchemaElem → Option (List μ × List SchemaElem)}
    (h : ∀ es, walk' es = (walk es).map fun r => (r.1.map f, r.2)) (n : ℕ) (es : List SchemaElem) :
    walkChildren walk' n es = (walkChildren walk n es).map fun r => (r.1.map f, r.2) := by
  induction n generalizing es with
  | zero => rfl
  | succ n ih =>
    simp only [walkChildren, h]
    cases walk es with
    | none => rfl
    | some r =>
      simp only [Option.map_some, Option.bind_eq_bind, Option.bind_some, ih]
      cases walkChildren walk n r.2 with
      | none => rfl
      | some r' => simp

/-- The walk counts the levels of the path that it is on. -/
theorem walkSchema_eq (fuel : ℕ) (p : Path) (es : List SchemaElem) :
    walkSchema fuel (maxDef p) (maxRep p) es =
      (walkPaths fuel p es).map fun r => (r.1.map leafAt, r.2) := by
  induction fuel generalizing p es with
  | zero => rfl
  | succ fuel ih =>
    cases es with
    | nil => rfl
    | cons e es =>
      have hdef : maxDef p + (if e.repetition = .optional then 1 else 0) +
          (if e.repetition = .repeated then 1 else 0) = maxDef (p ++ [e.repetition]) := by
        cases e.repetition <;> simp [maxDef]
      have hrep : maxRep p + (if e.repetition = .repeated then 1 else 0) =
          maxRep (p ++ [e.repetition]) := by
        cases e.repetition <;> simp [maxRep]
      simp only [walkSchema, walkPaths, hdef, hrep]
      split
      · simp [leafAt]
      · exact walkChildren_map (ih (p ++ [e.repetition])) e.numChildren es

/-- **The levels of a leaf are those of its path.** -/
theorem fileLeaves_eq (elems : List SchemaElem) :
    fileLeaves elems = (filePaths elems).map fun leaves => leaves.map leafAt := by
  cases elems with
  | nil => rfl
  | cons root es =>
    have hwalk := walkChildren_map (walkSchema_eq (es.length + 1) []) root.numChildren es
    simp only [fileLeaves, filePaths]
    rw [show walkChildren (walkSchema (es.length + 1) 0 0) root.numChildren es = _ from hwalk]
    cases walkChildren (walkPaths (es.length + 1) []) root.numChildren es with
    | none => rfl
    | some r => by_cases hr : r.1 = [] <;> simp [hr]

/-! ### The columns -/

/-- A column that is read.  A dropped one is skipped, and so is one that the file does not
have; a dropped field of a composite type is `none`. -/
inductive ImpAtt where
  | skipped
  | array (elemtype : TypeOid) (typmod : ℤ)
  | composite (fields : List (Option (TypeOid × ℤ)))
  | scalar (typid : TypeOid) (typmod : ℤ)

structure ImpLeaf where
  plan : PqColPlan
  maxDef : ℕ
  maxRep : ℕ

/-- A column bound to its leaves; `none` is a dropped field. -/
inductive ImpTarget where
  | scalar (leaf : ImpLeaf)
  | list (leaf : ImpLeaf)
  | struct (fields : List (Option ImpLeaf))

variable (coercionFunction : TypeOid → Bool)

/-- A leaf that is read as a scalar value. -/
def bindScalarLeaf (typid : TypeOid) (typmod : ℤ) (leaf : PqLeafInfo) : Option ImpLeaf :=
  (bindScalar coercionFunction typid typmod leaf).map fun plan => ⟨plan, leaf.maxDef, leaf.maxRep⟩

/-- The array branch of `build_imp_targets`. -/
def bindElement (elemtype : TypeOid) (typmod : ℤ) (leaf : PqLeafInfo) : Option ImpLeaf :=
  match pqWantPhysFor elemtype leaf.sc with
  | none => none
  | some want =>
    if leaf.maxRep < 1 then none
    else if 1 < leaf.maxRep then none
    else if leaf.sc.physType ≠ want then none
    else some ⟨pqPlanSetTypmod coercionFunction
      (pqPlanBindSchema elemtype want leaf.sc) typmod leaf.sc,
      leaf.maxDef, leaf.maxRep⟩

/-- The loop over the fields of a composite type: the fields bound, and the leaves behind. -/
def bindFields : List (Option (TypeOid × ℤ)) → List PqLeafInfo →
    Option (List (Option ImpLeaf) × List PqLeafInfo)
  | [], leaves => some ([], leaves)
  | none :: fs, leaves => do
    let (bound, leaves) ← bindFields fs leaves
    return (none :: bound, leaves)
  | some _ :: _, [] => none
  | some (typid, typmod) :: fs, leaf :: leaves => do
    let field ← bindScalarLeaf coercionFunction typid typmod leaf
    let (bound, leaves) ← bindFields fs leaves
    return (some field :: bound, leaves)

/-- `build_imp_targets`; every leaf must be bound. -/
def buildImpTargets : List ImpAtt → List PqLeafInfo → Option (List ImpTarget)
  | [], [] => some []
  | [], _ :: _ => none
  | .skipped :: atts, leaves => buildImpTargets atts leaves
  | .composite fields :: atts, leaves => do
    let (bound, leaves) ← bindFields coercionFunction fields leaves
    return .struct bound :: (← buildImpTargets atts leaves)
  | _ :: _, [] => none
  | .array elemtype typmod :: atts, leaf :: leaves => do
    let element ← bindElement coercionFunction elemtype typmod leaf
    return .list element :: (← buildImpTargets atts leaves)
  | .scalar typid typmod :: atts, leaf :: leaves => do
    let bound ← bindScalarLeaf coercionFunction typid typmod leaf
    return .scalar bound :: (← buildImpTargets atts leaves)

end PgColumnar.Parquet
