import PgColumnar.Agg.KeySet

/-!
# Aggregates over a join

An aggregate over an inner join with a dimension whose keys are unique is folded over the
fact table alone (`columnar_vector.c`): the keys of the dimension are drained into a set, and
a fact row is folded if the set has its key.  The set compares keys by the default equality
of the type of the fact column, under the collation of the fact column.  The join compares
them by the operator of its clause, under the collation of the clause, and relabelings of
the two columns may have changed both.

The operators and support functions of the catalog are parameters, and so are the rows that
the plans under the node return.

## Main definitions

* `FoldNode`, `planJoinFold` — the node, and the clauses that it takes.
* `runFold` — its executions, with the rows each drain of the dimension reads.
* `joinAggregates` — the aggregates over the join that it stands for.

## Main results

* `joinMatches_eq` — what the clause compares.
* `joinFold_correct_iff` — exactly when the node emits the aggregates over the join.
-/

namespace PgColumnar.Agg

open List

abbrev Oid := BitVec 32

/-- A reference to a column. -/
structure Var where
  varno : ℕ
  varattno : ℤ
  vartype : Oid
  varlevelsup : ℕ
  deriving DecidableEq, Repr

/-- A row, by attribute number; `none` is null. -/
abbrev Row (δ : Type) := ℤ → Option δ

/-- An expression: a column, a binary-compatible cast or collation around one, or anything
else, known by its value. -/
inductive Node (δ : Type) where
  | var (v : Var)
  | relabel (arg : Node δ) (resulttype resultcollid : Oid)
  | other (value : (Var → Option δ) → Option δ)

structure OpExpr (δ : Type) where
  opno : Oid
  inputcollid : Oid
  args : List (Node δ)

inductive Clause (δ : Type) where
  | opExpr (e : OpExpr δ)
  | other

/-- What is read of a hash join: its clauses, and the relations on both sides. -/
structure HashPath (δ : Type) where
  hashclauses : List (Clause δ)
  factRelids : List ℕ
  buildRelids : List ℕ
  disjoint : ∀ n ∈ buildRelids, n ∉ factRelids

/-- The catalog: which relations are columnar, the equality and hash functions that the type
cache has for a type, and the functions of operators; all but the first under a collation. -/
structure Catalog (δ : Type) where
  columnar : ℕ → Bool
  eqOpr : Oid → Option (Oid → δ → δ → Bool)
  hashProc : Oid → Option (Oid → δ → Hash)
  operator : Oid → Oid → δ → δ → Bool

variable {δ σ τ : Type}

/-- The value of an expression: a relabeling leaves the datum as it is. -/
def Node.value (env : Var → Option δ) : Node δ → Option δ
  | .var v => env v
  | .relabel arg _ _ => arg.value env
  | .other f => f env

/-! ### The clauses accepted -/

/-- `pgcolumnar_join_fold_strip` -/
def joinFoldStrip : Node δ → Node δ
  | .relabel arg _ _ => joinFoldStrip arg
  | n => n

/-- The tests of `pgcolumnar_join_fold_vars` on the two columns. -/
def acceptsVars (cat : Catalog δ) (factVar buildVar : Var) : Bool :=
  decide (factVar.varlevelsup = 0) && decide (buildVar.varlevelsup = 0) &&
  decide (0 < factVar.varattno) && decide (0 < buildVar.varattno) &&
  decide (factVar.vartype = buildVar.vartype) && cat.columnar factVar.varno &&
  (cat.eqOpr factVar.vartype).isSome && (cat.hashProc factVar.vartype).isSome

/-- The two columns of a clause, the column of the fact relation first. -/
def clauseVars (path : HashPath δ) (e : OpExpr δ) : Option (Var × Var) :=
  match e.args with
  | [l, r] =>
    match joinFoldStrip l, joinFoldStrip r with
    | .var left, .var right =>
      if left.varno ∈ path.factRelids ∧ right.varno ∈ path.buildRelids then some (left, right)
      else if right.varno ∈ path.factRelids ∧ left.varno ∈ path.buildRelids then some (right, left)
      else none
    | _, _ => none
  | _ => none

/-- `pgcolumnar_join_fold_vars` -/
def joinFoldVars (cat : Catalog δ) (path : HashPath δ) : Option (Var × Var) :=
  match path.hashclauses with
  | [.opExpr e] => (clauseVars path e).filter fun vars => acceptsVars cat vars.1 vars.2
  | _ => none

/-- `pgcolumnar_join_fold_key_resno` -/
def joinFoldKeyResno (targetlist : List (Node δ)) (varno : ℕ) (attno : ℤ) : Option ℕ :=
  (targetlist.findIdx? fun n =>
    match joinFoldStrip n with
    | .var v => decide (v.varno = varno ∧ v.varattno = attno)
    | _ => false).map (· + 1)

/-! ### The node -/

structure FactAttribute where
  atttypid : Oid
  attcollation : Oid

/-- What the fold is planned from.  A dimension plan that keeps its result returns it again
when it is rescanned without being told that a parameter has changed. -/
structure JoinFold (δ : Type) where
  path : HashPath δ
  tupdesc : ℤ → FactAttribute
  targetlist : List (Node δ)
  keepsResult : Bool

/-- The node as it begins. -/
structure FoldNode (δ : Type) where
  keyType : KeyType δ
  joinFactAttno : ℤ
  joinBuildResno : ℕ
  targetlist : List (Node δ)
  keepsResult : Bool

/-- The plan of the node, and the join setup of `PgColumnarBeginAggScan`. -/
def planJoinFold (cat : Catalog δ) (J : JoinFold δ) : Option (FoldNode δ) := do
  let (factVar, buildVar) ← joinFoldVars cat J.path
  let resno ← joinFoldKeyResno J.targetlist buildVar.varno buildVar.varattno
  let att := J.tupdesc factVar.varattno
  let eqFn ← cat.eqOpr att.atttypid
  let hashFn ← cat.hashProc att.atttypid
  return {
    keyType := ⟨eqFn att.attcollation, hashFn att.attcollation⟩
    joinFactAttno := factVar.varattno
    joinBuildResno := resno
    targetlist := J.targetlist
    keepsResult := J.keepsResult }

/-- The aggregates of the node: how they begin, take a row, and are read. -/
structure Aggregate (δ σ τ : Type) where
  init : σ
  apply : σ → Row δ → σ
  finalize : σ → τ

/-- The aggregates over rows. -/
def Aggregate.over (A : Aggregate δ σ τ) (rows : List (Row δ)) : τ :=
  A.finalize (rows.foldl A.apply A.init)

/-- The key set, what the dimension plan returned last, and the accumulators. -/
structure FoldState (δ σ : Type) where
  keys : KeyTable δ
  childRows : List (Row δ)
  done : Bool
  acc : σ

inductive FoldEvent (δ : Type) where
  /-- The node is executed, while the fact table has these rows. -/
  | exec (facts : List (Row δ)) (passes : Row δ → Bool)
  /-- The node is rescanned, while the dimension has these rows. -/
  | rescan (dims : List (Row δ))

/-- The key that the drain reads from a row of the dimension. -/
def FoldNode.slotKey (N : FoldNode δ) (d : Row δ) : Option δ :=
  (N.targetlist.map (Node.value fun v => d v.varattno)).getD (N.joinBuildResno - 1) none

/-- `pgcolumnar_join_fold_drain` -/
def drainDim (N : FoldNode δ) (rows : List (Row δ)) : Except Failure (KeyTable δ) :=
  drainKeys N.keyType (rows.map N.slotKey)

/-- `PgColumnarBeginAggScan`.  It drains what the dimension plan returns while the plan tree is
still being initialized: a parameter that an initial plan computes has no value yet, so these
rows need not be those of the dimension at the first execution. -/
def beginAggScan (N : FoldNode δ) (A : Aggregate δ σ τ) (drained : List (Row δ)) :
    Except Failure (FoldState δ σ) := do
  return ⟨← drainDim N drained, drained, false, A.init⟩

/-- One row of the loop of `pgcolumnar_native_scan_agg`. -/
def foldRow (N : FoldNode δ) (A : Aggregate δ σ τ) (keys : KeyTable δ) (passes : Row δ → Bool)
    (acc : σ) (row : Row δ) : σ :=
  if passes row then
    match row N.joinFactAttno with
    | none => acc
    | some x => if lookupKey N.keyType keys x then A.apply acc row else acc
  else acc

/-- What `ExecReScan` on the dimension plan makes it return. -/
def execReScan (N : FoldNode δ) (before dims : List (Row δ)) : List (Row δ) :=
  if N.keepsResult then before else dims

/-- `PgColumnarReScanAggScan` -/
def reScanAggScan (N : FoldNode δ) (A : Aggregate δ σ τ) (s : FoldState δ σ) (dims : List (Row δ)) :
    Except Failure (FoldState δ σ) := do
  return ⟨← drainDim N (execReScan N s.childRows dims), execReScan N s.childRows dims,
    false, A.init⟩

/-- `PgColumnarExecAggScan`; `none` is the end of the rows. -/
def execAggScan (N : FoldNode δ) (A : Aggregate δ σ τ) (s : FoldState δ σ) (facts : List (Row δ))
    (passes : Row δ → Bool) : FoldState δ σ × Option τ :=
  if s.done then (s, none)
  else
    let acc := facts.foldl (foldRow N A s.keys passes) s.acc
    ({ s with done := true, acc := acc }, some (A.finalize acc))

/-- What the executions of a run emit. -/
def runFold (N : FoldNode δ) (A : Aggregate δ σ τ) (s : FoldState δ σ) :
    List (FoldEvent δ) → Except Failure (List (Option τ))
  | [] => .ok []
  | .exec facts passes :: es =>
    (runFold N A (execAggScan N A s facts passes).1 es).map
      ((execAggScan N A s facts passes).2 :: ·)
  | .rescan dims :: es => (reScanAggScan N A s dims).bind fun s' => runFold N A s' es

/-- The node over a run whose beginning drains the given rows. -/
def joinFold (N : FoldNode δ) (A : Aggregate δ σ τ) (drained : List (Row δ))
    (events : List (FoldEvent δ)) : Except Failure (List (Option τ)) :=
  (beginAggScan N A drained).bind fun s => runFold N A s events

/-! ### The join -/

/-- The columns of a pair of rows. -/
def pairEnv (path : HashPath δ) (a d : Row δ) (v : Var) : Option δ :=
  if v.varno ∈ path.factRelids then a v.varattno else d v.varattno

/-- The clause holds of a pair of rows; its operator is strict. -/
def Clause.holds (cat : Catalog δ) (env : Var → Option δ) : Clause δ → Bool
  | .opExpr e =>
    match e.args.map (Node.value env) with
    | [some x, some y] => cat.operator e.opno e.inputcollid x y
    | _ => false
  | .other => false

/-- The join clauses hold of a fact row and a row of the dimension. -/
def joinMatches (cat : Catalog δ) (path : HashPath δ) (a d : Row δ) : Bool :=
  path.hashclauses.all (Clause.holds cat (pairEnv path a d))

/-- The rows of the inner join. -/
def innerJoin (cat : Catalog δ) (path : HashPath δ) (facts : List (Row δ)) (passes : Row δ → Bool)
    (dims : List (Row δ)) : List (Row δ × Row δ) :=
  (facts.filter passes).flatMap fun a => (dims.filter (joinMatches cat path a)).map fun d => (a, d)

/-- What a run emits if each execution after a rescan emits the aggregates over the join. -/
def joinAggregates (cat : Catalog δ) (path : HashPath δ) (A : Aggregate δ σ τ) :
    List (Row δ) → Bool → List (FoldEvent δ) → List (Option τ)
  | _, _, [] => []
  | dims, done, .exec facts passes :: es =>
    (if done then none else some (A.over ((innerJoin cat path facts passes dims).map Prod.fst))) ::
      joinAggregates cat path A dims true es
  | _, _, .rescan dims :: es => joinAggregates cat path A dims false es

/-- What the uniqueness proof of the planner says of the rows of the dimension. -/
def UniqueMatch (cat : Catalog δ) (path : HashPath δ) (dims : List (Row δ)) : Prop :=
  ∀ a, (dims.filter (joinMatches cat path a)).length ≤ 1

/-- The dimension after each rescan. -/
def rescanDims (events : List (FoldEvent δ)) : List (List (Row δ)) :=
  events.filterMap fun e =>
    match e with
    | .exec _ _ => none
    | .rescan dims => some dims

/-! ### When they agree -/

/-- The operator of the clause on a fact key and a dimension key, under its collation. -/
def clauseEq (cat : Catalog δ) (path : HashPath δ) (x y : δ) : Bool :=
  match path.hashclauses with
  | [.opExpr e] =>
    match e.args.map joinFoldStrip with
    | .var left :: _ =>
      if left.varno ∈ path.factRelids then cat.operator e.opno e.inputcollid x y
      else cat.operator e.opno e.inputcollid y x
    | _ => false
  | _ => false

/-- For each fact row that passes the filter: the clause calls its key equal to one of the
dimension exactly if the default equality calls it equal to one that was drained. -/
def KeysAgree (cat : Catalog δ) (path : HashPath δ) (N : FoldNode δ) (drained dims : List (Row δ))
    (facts : List (Row δ)) (passes : Row δ → Bool) : Prop :=
  ∀ a ∈ facts, passes a = true → ∀ x, a N.joinFactAttno = some x →
    ((∃ d ∈ dims, ∃ y, N.slotKey d = some y ∧ clauseEq cat path x y = true) ↔
      ∃ d ∈ drained, ∃ y, N.slotKey d = some y ∧ N.keyType.eq y x = true)

/-- The keys of the rows fit into a key set. -/
def FitsDim (N : FoldNode δ) (rows : List (Row δ)) : Prop :=
  FitsKeys N.keyType (rows.map N.slotKey).reduceOption

/-- Every drain after the first fits, and the keys agree at each execution that emits. -/
def RunAgrees (cat : Catalog δ) (path : HashPath δ) (N : FoldNode δ) :
    List (Row δ) → List (Row δ) → Bool → List (FoldEvent δ) → Prop
  | _, _, _, [] => True
  | drained, dims, done, .exec facts passes :: es =>
    (done = false → KeysAgree cat path N drained dims facts passes) ∧
      RunAgrees cat path N drained dims true es
  | drained, _, _, .rescan dims :: es =>
    FitsDim N (execReScan N drained dims) ∧
      RunAgrees cat path N (execReScan N drained dims) dims false es

variable {cat : Catalog δ} {J : JoinFold δ} {N : FoldNode δ} {A : Aggregate δ σ τ}
  {drained dims facts : List (Row δ)} {passes : Row δ → Bool} {keys : KeyTable δ} {a : Row δ}

/-! ### The clause -/

@[simp]
theorem value_joinFoldStrip (env : Var → Option δ) (n : Node δ) :
    (joinFoldStrip n).value env = n.value env := by
  induction n with
  | var v | other f => rfl
  | relabel arg _ _ ih => exact ih

theorem value_of_joinFoldStrip {n : Node δ} {v : Var} (h : joinFoldStrip n = .var v)
    (env : Var → Option δ) : n.value env = env v := by
  rw [← value_joinFoldStrip, h]
  rfl

/-- The drain reads the key column. -/
theorem getD_joinFoldKeyResno {targetlist : List (Node δ)} {varno resno : ℕ} {attno : ℤ}
    (h : joinFoldKeyResno targetlist varno attno = some resno) (d : Row δ) :
    (targetlist.map (Node.value fun v => d v.varattno)).getD (resno - 1) none = d attno := by
  obtain ⟨i, hi, rfl⟩ := Option.map_eq_some_iff.mp h
  obtain ⟨hlt, hcol, -⟩ := findIdx?_eq_some_iff_getElem.mp hi
  rw [Nat.add_sub_cancel, getD_eq_getElem _ _ (by simpa using hlt), getElem_map]
  cases hstrip : joinFoldStrip targetlist[i] with
  | var v =>
    simp only [hstrip, decide_eq_true_eq] at hcol
    rw [value_of_joinFoldStrip hstrip, hcol.2]
  | relabel arg typ coll | other f => simp [hstrip] at hcol

variable {path : HashPath δ}

/-- The two columns of a clause are its arguments, in one order or the other. -/
theorem clauseVars_eq_some {e : OpExpr δ} {vars : Var × Var}
    (h : clauseVars path e = some vars) : ∃ l r left right, e.args = [l, r] ∧
      joinFoldStrip l = .var left ∧ joinFoldStrip r = .var right ∧
      (left.varno ∈ path.factRelids ∧ right.varno ∈ path.buildRelids ∧ vars = (left, right) ∨
        right.varno ∈ path.factRelids ∧ left.varno ∈ path.buildRelids ∧ vars = (right, left)) := by
  simp only [clauseVars] at h
  split at h
  · next l r hargs =>
    split at h
    · next left right hl hr =>
      refine ⟨l, r, left, right, hargs, hl, hr, ?_⟩
      split at h
      · next hside => exact .inl ⟨hside.1, hside.2, (Option.some.inj h).symm⟩
      · split_ifs at h with hside
        exact .inr ⟨hside.1, hside.2, (Option.some.inj h).symm⟩
    · cases h
  · cases h

/-- What a planned fold was planned from. -/
theorem planJoinFold_eq_some (h : planJoinFold cat J = some N) :
    ∃ e factVar buildVar, J.path.hashclauses = [.opExpr e] ∧
      clauseVars J.path e = some (factVar, buildVar) ∧ N.joinFactAttno = factVar.varattno ∧
      (∀ d, N.slotKey d = d buildVar.varattno) ∧
      ∃ typ coll eq hash, cat.eqOpr typ = some eq ∧ cat.hashProc typ = some hash ∧
        N.keyType = ⟨eq coll, hash coll⟩ := by
  simp only [planJoinFold, Option.bind_eq_bind, Option.bind_eq_some_iff] at h
  obtain ⟨⟨factVar, buildVar⟩, hvars, resno, hresno, eqFn, heq, hashFn, hhash, hN⟩ := h
  cases hN
  simp only [joinFoldVars] at hvars
  split at hvars
  · next e hclause =>
    refine ⟨e, factVar, buildVar, hclause, (Option.filter_eq_some_iff.mp hvars).1, rfl, ?_, ?_⟩
    · exact getD_joinFoldKeyResno hresno
    · exact ⟨_, _, eqFn, hashFn, heq, hhash, rfl⟩
  · cases hvars

/-- **The clause compares the values of the columns under its relabelings.** -/
theorem joinMatches_eq (h : planJoinFold cat J = some N) (a d : Row δ) :
    joinMatches cat J.path a d = true ↔ ∃ x, a N.joinFactAttno = some x ∧
      ∃ y, N.slotKey d = some y ∧ clauseEq cat J.path x y = true := by
  obtain ⟨e, factVar, buildVar, hclause, hvars, hfact, hslot, -⟩ := planJoinFold_eq_some h
  obtain ⟨l, r, left, right, hargs, hl, hr, hside⟩ := clauseVars_eq_some hvars
  have hvalues : e.args.map (Node.value (pairEnv J.path a d)) =
      [pairEnv J.path a d left, pairEnv J.path a d right] := by
    rw [hargs]
    simp [value_of_joinFoldStrip hl, value_of_joinFoldStrip hr]
  have hstrips : e.args.map joinFoldStrip = [.var left, .var right] := by
    rw [hargs]
    simp [hl, hr]
  rw [hfact, hslot]
  simp only [joinMatches, hclause, all_cons, all_nil, Bool.and_true, Clause.holds, hvalues,
    clauseEq, hstrips]
  rcases hside with ⟨hf, hb, heq⟩ | ⟨hf, hb, heq⟩
  · cases heq
    have hb' := J.path.disjoint _ hb
    simp only [pairEnv, hf, hb', if_true, if_false]
    cases a factVar.varattno <;> cases d buildVar.varattno <;> simp
  · cases heq
    have hb' := J.path.disjoint _ hb
    simp only [pairEnv, hf, hb', if_true, if_false]
    cases a factVar.varattno <;> cases d buildVar.varattno <;> simp

/-- A fact row has a partner in the dimension exactly if the clause calls a key equal. -/
theorem any_joinMatches_iff (h : planJoinFold cat J = some N) (a : Row δ) (dims : List (Row δ)) :
    (dims.any (joinMatches cat J.path a)) = true ↔ ∃ x, a N.joinFactAttno = some x ∧
      ∃ d ∈ dims, ∃ y, N.slotKey d = some y ∧ clauseEq cat J.path x y = true := by
  rw [any_eq_true]
  constructor
  · intro ⟨d, hd, hmatch⟩
    obtain ⟨x, hx, y, hy, heq⟩ := (joinMatches_eq h a d).mp hmatch
    exact ⟨x, hx, d, hd, y, hy, heq⟩
  · intro ⟨x, hx, d, hd, y, hy, heq⟩
    exact ⟨d, hd, (joinMatches_eq h a d).mpr ⟨x, hx, y, hy, heq⟩⟩

/-! ### One execution -/

/-- The fact rows that an execution folds. -/
def found (N : FoldNode δ) (keys : KeyTable δ) (passes : Row δ → Bool) (row : Row δ) : Bool :=
  passes row && (row N.joinFactAttno).any (lookupKey N.keyType keys)

theorem foldl_foldRow (facts : List (Row δ)) (acc : σ) : facts.foldl (foldRow N A keys passes) acc =
      (facts.filter (found N keys passes)).foldl A.apply acc := by
  induction facts generalizing acc with
  | nil => rfl
  | cons row facts ih =>
    have hrow : foldRow N A keys passes acc row =
        if found N keys passes row then A.apply acc row else acc := by
      unfold foldRow found
      cases passes row with
      | false => rfl
      | true => cases row N.joinFactAttno <;> rfl
    rw [foldl_cons, ih, hrow, filter_cons]
    split <;> rfl

/-- With unique keys, the join repeats no fact row. -/
theorem map_fst_innerJoin (hunique : UniqueMatch cat path dims)
    (facts : List (Row δ)) (passes : Row δ → Bool) :
    (innerJoin cat path facts passes dims).map Prod.fst =
      facts.filter fun a => passes a && dims.any (joinMatches cat path a) := by
  unfold innerJoin
  induction facts with
  | nil => rfl
  | cons a facts ih =>
    have hone : ((dims.filter (joinMatches cat path a)).map fun d => (a, d)).map Prod.fst =
        if dims.any (joinMatches cat path a) then [a] else [] := by
      have hle := hunique a
      cases hpartners : dims.filter (joinMatches cat path a) with
      | nil =>
        have hnone : dims.any (joinMatches cat path a) = false := by
          simpa [filter_eq_nil_iff] using hpartners
        simp [hnone]
      | cons d rest =>
        obtain rfl : rest = [] := by simpa [hpartners] using hle
        have hmem : d ∈ dims.filter (joinMatches cat path a) := by simp [hpartners]
        have hsome : dims.any (joinMatches cat path a) = true :=
          any_eq_true.mpr ⟨d, mem_filter.mp hmem⟩
        simp [hsome]
    cases hpass : passes a with
    | false => simpa [filter_cons, hpass] using ih
    | true =>
      rw [filter_cons_of_pos hpass, flatMap_cons, map_append, ih, hone]
      cases hany : dims.any (joinMatches cat path a) with
      | false => simp [hany]
      | true => simp [hpass, hany]

theorem any_lookupKey (hK : N.keyType.Lawful)
    (hkeys : Holds N.keyType (distinctKeys N.keyType (drained.map N.slotKey).reduceOption) keys)
    (x : δ) : lookupKey N.keyType keys x = true ↔
      ∃ d ∈ drained, ∃ y, N.slotKey d = some y ∧ N.keyType.eq y x = true := by
  rw [lookupKey_eq hK hkeys, any_distinctKeys hK, any_eq_true]
  constructor
  · intro ⟨y, hy, heq⟩
    obtain ⟨d, hd, hslot⟩ := mem_map.mp (reduceOption_mem_iff.mp hy)
    exact ⟨d, hd, y, hslot, heq⟩
  · intro ⟨d, hd, y, hslot, heq⟩
    exact ⟨y, reduceOption_mem_iff.mpr (mem_map.mpr ⟨d, hd, hslot⟩), heq⟩

/-- The rows folded are those of the join exactly if the keys agree. -/
theorem filter_found_iff (h : planJoinFold cat J = some N) (hK : N.keyType.Lawful)
    (hkeys : Holds N.keyType (distinctKeys N.keyType (drained.map N.slotKey).reduceOption) keys)
    (hunique : UniqueMatch cat J.path dims) :
    facts.filter (found N keys passes) = (innerJoin cat J.path facts passes dims).map Prod.fst ↔
      KeysAgree cat J.path N drained dims facts passes := by
  rw [map_fst_innerJoin hunique]
  have hfound : ∀ a x, a N.joinFactAttno = some x → passes a = true →
      (found N keys passes a = true ↔ lookupKey N.keyType keys x = true) := by
    intro a x hx hpass
    simp [found, hx, hpass]
  have hjoin : ∀ a x, a N.joinFactAttno = some x → (dims.any (joinMatches cat J.path a) = true ↔
      ∃ d ∈ dims, ∃ y, N.slotKey d = some y ∧ clauseEq cat J.path x y = true) := by
    intro a x hx
    rw [any_joinMatches_iff h]
    simp [hx]
  constructor
  · intro heq a ha hpass x hx
    have hmem := congrArg (a ∈ ·) heq
    simp only [mem_filter, ha, true_and, hpass, Bool.true_and, eq_iff_iff] at hmem
    rw [hfound a x hx hpass, hjoin a x hx, any_lookupKey hK hkeys] at hmem
    exact hmem.symm
  · intro hagree
    apply filter_congr
    intro a ha
    cases hpass : passes a with
    | false => simp [found, hpass]
    | true =>
      rw [Bool.true_and, Bool.eq_iff_iff]
      cases hx : a N.joinFactAttno with
      | none =>
        rw [any_joinMatches_iff h]
        simp [found, hx]
      | some x =>
        rw [hfound a x hx hpass, hjoin a x hx, any_lookupKey hK hkeys]
        exact (hagree a ha hpass x hx).symm

/-! ### Runs -/

/-- The state keeps the keys of the rows drained, and no accumulator is used twice. -/
structure FoldInv (N : FoldNode δ) (A : Aggregate δ σ τ) (drained : List (Row δ))
    (s : FoldState δ σ) : Prop where
  child : s.childRows = drained
  keys : Holds N.keyType (distinctKeys N.keyType (drained.map N.slotKey).reduceOption) s.keys
  acc : s.done = false → s.acc = A.init

/-- A drain that fits begins a scan, and one that does not fails. -/
theorem drain_begin (hK : N.keyType.Lawful) (A : Aggregate δ σ τ) (rows : List (Row δ)) :
    (FitsDim N rows → ∃ keys, drainDim N rows = .ok keys ∧
      FoldInv N A rows ⟨keys, rows, false, A.init⟩) ∧
    (¬ FitsDim N rows → drainDim N rows = .error .invalidAlloc) := by
  obtain ⟨hok, herror⟩ := drainKeys_eq hK (rows.map N.slotKey)
  refine ⟨?_, herror⟩
  intro hfits
  obtain ⟨keys, hkeys, hholds⟩ := hok hfits
  exact ⟨keys, hkeys, rfl, hholds, fun _ => rfl⟩

variable {s : FoldState δ σ}

/-- A rescan fails or leaves a state that has not run yet. -/
theorem reScanAggScan_spec (hK : N.keyType.Lawful) (hinv : FoldInv N A drained s)
    (dims : List (Row δ)) :
    (FitsDim N (execReScan N drained dims) → ∃ s', reScanAggScan N A s dims = .ok s' ∧
      s'.done = false ∧ FoldInv N A (execReScan N drained dims) s') ∧
    (¬ FitsDim N (execReScan N drained dims) →
      reScanAggScan N A s dims = .error .invalidAlloc) := by
  obtain ⟨hok, herror⟩ := drain_begin hK A (execReScan N drained dims)
  unfold reScanAggScan
  rw [hinv.child]
  constructor
  · intro hfits
    obtain ⟨keys, hkeys, hinv'⟩ := hok hfits
    rw [hkeys]
    exact ⟨_, rfl, rfl, hinv'⟩
  · intro hfits
    rw [herror hfits]
    rfl

/-- An execution emits the aggregates over the rows found, once. -/
theorem execAggScan_spec (hinv : FoldInv N A drained s) (facts : List (Row δ))
    (passes : Row δ → Bool) :
    FoldInv N A drained (execAggScan N A s facts passes).1 ∧
    (execAggScan N A s facts passes).1.done = true ∧
    (execAggScan N A s facts passes).2 =
      if s.done then none else some (A.over (facts.filter (found N s.keys passes))) := by
  unfold execAggScan
  split
  · next hdone => exact ⟨hinv, hdone, rfl⟩
  · next hdone =>
    refine ⟨⟨hinv.child, hinv.keys, nofun⟩, rfl, ?_⟩
    rw [foldl_foldRow, hinv.acc (by simpa using hdone)]
    rfl

/-- **If the keys agree, a run emits the aggregates over the join.** -/
theorem runFold_of_runAgrees (h : planJoinFold cat J = some N) (hK : N.keyType.Lawful)
    (events : List (FoldEvent δ)) (s : FoldState δ σ) (hinv : FoldInv N A drained s)
    (hunique : ∀ rows ∈ dims :: rescanDims events, UniqueMatch cat J.path rows)
    (hagree : RunAgrees cat J.path N drained dims s.done events) :
    runFold N A s events = .ok (joinAggregates cat J.path A dims s.done events) := by
  induction events generalizing s drained dims with
  | nil => rfl
  | cons event events ih =>
    cases event with
    | exec facts passes =>
      obtain ⟨hkeys, hrest⟩ := hagree
      obtain ⟨hinv', hdone', hout⟩ := execAggScan_spec hinv facts passes
      rw [← hdone'] at hrest
      rw [runFold, ih _ hinv' hunique hrest, hdone', hout, joinAggregates]
      cases hdone : s.done with
      | true => rfl
      | false =>
        rw [(filter_found_iff h hK hinv.keys (hunique dims mem_cons_self)).mpr (hkeys hdone)]
        rfl
    | rescan dims' =>
      obtain ⟨hfits, hrest⟩ := hagree
      obtain ⟨s', hscan, hdone, hinv'⟩ := (reScanAggScan_spec hK hinv dims').1 hfits
      have hunique' : ∀ rows ∈ dims' :: rescanDims events, UniqueMatch cat J.path rows :=
        fun rows hrows => hunique rows (mem_cons_of_mem _ hrows)
      rw [← hdone] at hrest
      rw [runFold, hscan, joinAggregates, ← hdone]
      exact ih s' hinv' hunique' hrest

/-- The aggregate that shows which rows it was given. -/
def collect : Aggregate δ (List (Row δ)) (List (Row δ)) := ⟨[], fun acc row => acc ++ [row], id⟩

theorem over_collect (rows : List (Row δ)) : collect.over rows = rows := by
  have happend : ∀ acc : List (Row δ), rows.foldl collect.apply acc = acc ++ rows := by
    induction rows with
    | nil => simp
    | cons row rows ih =>
      intro acc
      rw [foldl_cons, ih]
      simp [collect]
  exact happend []

/-- **If a run shows the rows of the join, the keys agree.** -/
theorem runAgrees_of_collect (h : planJoinFold cat J = some N) (hK : N.keyType.Lawful)
    (events : List (FoldEvent δ)) (s : FoldState δ (List (Row δ)))
    (hinv : FoldInv N collect drained s)
    (hunique : ∀ rows ∈ dims :: rescanDims events, UniqueMatch cat J.path rows)
    (hrun : runFold N collect s events = .ok
      (joinAggregates cat J.path collect dims s.done events)) :
    RunAgrees cat J.path N drained dims s.done events := by
  induction events generalizing s drained dims with
  | nil => trivial
  | cons event events ih =>
    cases event with
    | exec facts passes =>
      obtain ⟨hinv', hdone', hout⟩ := execAggScan_spec hinv facts passes
      rw [runFold, joinAggregates] at hrun
      cases hrest : runFold N collect (execAggScan N collect s facts passes).1 events with
      | error f =>
        rw [hrest] at hrun
        cases hrun
      | ok rest =>
        rw [hrest, hout] at hrun
        obtain ⟨hhead, htail⟩ := List.cons.inj (Except.ok.inj hrun)
        have hagree := ih _ hinv' hunique (by rw [hrest, hdone', htail])
        rw [hdone'] at hagree
        refine ⟨fun hdone => ?_, hagree⟩
        apply (filter_found_iff h hK hinv.keys (hunique dims mem_cons_self)).mp
        simpa [hdone, over_collect] using hhead
    | rescan dims' =>
      rw [runFold, joinAggregates] at hrun
      by_cases hfits : FitsDim N (execReScan N drained dims')
      · obtain ⟨s', hscan, hdone, hinv'⟩ := (reScanAggScan_spec hK hinv dims').1 hfits
        have hunique' : ∀ rows ∈ dims' :: rescanDims events, UniqueMatch cat J.path rows :=
          fun rows hrows => hunique rows (mem_cons_of_mem _ hrows)
        rw [hscan, ← hdone] at hrun
        have hagree := ih s' hinv' hunique' hrun
        rw [hdone] at hagree
        exact ⟨hfits, hagree⟩
      · rw [(reScanAggScan_spec hK hinv dims').2 hfits] at hrun
        cases hrun

/-- Whatever the keys, no operation of a run goes on forever. -/
theorem runFold_ne_endless (hK : N.keyType.Lawful) (events : List (FoldEvent δ)) (s : FoldState δ σ)
    (hinv : FoldInv N A drained s) : runFold N A s events ≠ .error .endless := by
  induction events generalizing s drained with
  | nil => nofun
  | cons event events ih =>
    cases event with
    | exec facts passes =>
      have hrest := ih _ (execAggScan_spec hinv facts passes).1
      rw [runFold]
      cases hrun : runFold N A (execAggScan N A s facts passes).1 events with
      | error f =>
        intro hend
        cases hend
        exact hrest hrun
      | ok rest => nofun
    | rescan dims =>
      rw [runFold]
      by_cases hfits : FitsDim N (execReScan N drained dims)
      · obtain ⟨s', hscan, -, hinv'⟩ := (reScanAggScan_spec hK hinv dims).1 hfits
        rw [hscan]
        exact ih s' hinv'
      · rw [(reScanAggScan_spec hK hinv dims).2 hfits]
        nofun

/-- **Exactly when the node emits the aggregates over the join.**  The run never goes on
forever.  It emits them, whatever they are, exactly if every drain fits and, at every
execution, the fact rows that pass the filter find a key exactly if they have a partner.
`drained` is what the dimension plan returned at the beginning, `dims` are the rows of the
dimension when the run starts. -/
theorem joinFold_correct_iff (cat : Catalog δ) (J : JoinFold δ) (N : FoldNode δ)
    (hplan : planJoinFold cat J = some N)
    (hlawful : ∀ typ eq hash, cat.eqOpr typ = some eq → cat.hashProc typ = some hash →
      ∀ coll, (KeyType.mk (eq coll) (hash coll)).Lawful)
    (drained dims : List (Row δ)) (events : List (FoldEvent δ))
    (hunique : ∀ rows ∈ dims :: rescanDims events, UniqueMatch cat J.path rows) :
    (∀ (σ τ : Type) (A : Aggregate δ σ τ), joinFold N A drained events ≠ .error .endless) ∧
    ((∀ (σ τ : Type) (A : Aggregate δ σ τ),
        joinFold N A drained events = .ok (joinAggregates cat J.path A dims false events)) ↔
      FitsDim N drained ∧ RunAgrees cat J.path N drained dims false events) := by
  have hK : N.keyType.Lawful := by
    obtain ⟨_, _, _, -, -, -, -, typ, coll, eq, hash, heq, hhash, hkey⟩ :=
      planJoinFold_eq_some hplan
    rw [hkey]
    exact hlawful typ eq hash heq hhash coll
  unfold joinFold beginAggScan
  by_cases hfits : FitsDim N drained
  · refine ⟨?_, ?_, ?_⟩
    · intro σ τ A
      obtain ⟨keys, hkeys, hinv⟩ := (drain_begin hK A drained).1 hfits
      rw [hkeys]
      exact runFold_ne_endless hK events _ hinv
    · intro hall
      obtain ⟨keys, hkeys, hinv⟩ := (drain_begin hK collect drained).1 hfits
      have hrun := hall _ _ collect
      rw [hkeys] at hrun
      exact ⟨hfits, runAgrees_of_collect hplan hK events _ hinv hunique hrun⟩
    · intro ⟨_, hagree⟩ σ τ A
      obtain ⟨keys, hkeys, hinv⟩ := (drain_begin hK A drained).1 hfits
      rw [hkeys]
      exact runFold_of_runAgrees hplan hK events _ hinv hunique hagree
  · have hfail : drainDim N drained = .error .invalidAlloc :=
      (drain_begin hK (collect (δ := δ)) drained).2 hfits
    rw [hfail]
    refine ⟨fun σ τ A => nofun, ?_, ?_⟩
    · intro hall
      cases hall _ _ (collect (δ := δ))
    · intro hagree
      exact absurd hagree.1 hfits

/-- The keys agree in every run if the clause has the equality of the column, the dimension
plan runs again at every rescan, and the keys fit. -/
theorem runAgrees_of_sameEq (heq : ∀ x y, clauseEq cat J.path x y = N.keyType.eq y x)
    (hkeeps : N.keepsResult = false) (events : List (FoldEvent δ)) (done : Bool)
    (hfits : ∀ rows ∈ rescanDims events, FitsDim N rows) :
    RunAgrees cat J.path N dims dims done events := by
  induction events generalizing dims done with
  | nil => trivial
  | cons event events ih =>
    cases event with
    | exec facts passes =>
      refine ⟨?_, ih true hfits⟩
      intro _ a _ _ x _
      simp only [heq]
    | rescan dims' =>
      have hrescan : execReScan N dims dims' = dims' := by simp [execReScan, hkeeps]
      rw [RunAgrees, hrescan]
      exact ⟨hfits dims' mem_cons_self,
        ih false fun rows hrows => hfits rows (mem_cons_of_mem _ hrows)⟩

/-! Two `text` columns, joined under the default collation or one that ignores case. -/

/-- How `text` values compare under a collation; 12345 ignores case. -/
def textKey (coll : Oid) (x : List Char) : List Char :=
    if coll = 12345 then x.map Char.toLower else x

def textEq (coll : Oid) (x y : List Char) : Bool := decide (textKey coll x = textKey coll y)

def textHash (coll : Oid) (x : List Char) : Hash :=
  (textKey coll x).foldl (fun h c => h * 31 + BitVec.ofNat 32 c.toNat) 0

def textCatalog : Catalog (List Char) where
  columnar n := n == 1
  eqOpr typ := if typ = 25 then some textEq else none
  hashProc typ := if typ = 25 then some textHash else none
  operator _ coll := textEq coll

/-- `f.k COLLATE coll = d.k`, where `f.k` and `d.k` are columns with the default collation. -/
def textJoin (coll : Oid) : JoinFold (List Char) where
  path := ⟨[.opExpr ⟨98, coll, [.relabel (.var ⟨1, 1, 25, 0⟩) 25 coll, .var ⟨2, 1, 25, 0⟩]⟩],
    [1], [2],
    by decide⟩
  tupdesc _ := ⟨25, 100⟩
  targetlist := [.var ⟨2, 1, 25, 0⟩]
  keepsResult := false

def textNode : FoldNode (List Char) :=
  ⟨⟨textEq 100, textHash 100⟩, 1, 1, [.var ⟨2, 1, 25, 0⟩], false⟩

/-- `count(*)` -/
def countRows : Aggregate (List Char) ℕ ℕ := ⟨0, fun n _ => n + 1, id⟩

def textRow (s : String) : Row (List Char) := fun attno => if attno = 1 then some s.toList else none

theorem planJoinFold_textJoin (coll : Oid) :
    planJoinFold textCatalog (textJoin coll) = some textNode := by
  rfl

theorem textCatalog_lawful (typ : Oid) (eq : Oid → List Char → List Char → Bool)
    (hash : Oid → List Char → Hash) (heq : textCatalog.eqOpr typ = some eq)
    (hhash : textCatalog.hashProc typ = some hash) (coll : Oid) :
    (KeyType.mk (eq coll) (hash coll)).Lawful := by
  simp only [textCatalog] at heq hhash
  obtain ⟨htyp, heq⟩ := Option.ite_none_right_eq_some.mp heq
  cases heq
  rw [if_pos htyp] at hhash
  cases hhash
  constructor
  · simp [textEq]
  · simp [textEq, eq_comm]
  · simp only [textEq, decide_eq_true_eq]
    exact fun a b c => Eq.trans
  · simp only [textEq, decide_eq_true_eq]
    intro a b hab
    simp only [textHash, hab]

/-- A dimension of at most one row has unique keys. -/
theorem uniqueMatch_of_length (h : dims.length ≤ 1) : UniqueMatch cat path dims :=
  fun _ => le_trans (length_filter_le _ _) h

/-- The join ignores case and counts the row; the fold does not. -/
theorem joinFold_collate_differs : planJoinFold textCatalog (textJoin 12345) = some textNode ∧
      UniqueMatch textCatalog (textJoin 12345).path [textRow "A"] ∧
      joinAggregates textCatalog (textJoin 12345).path countRows [textRow "A"] false
        [.exec [textRow "a"] fun _ => true] = [some 1] ∧
      joinFold textNode countRows [textRow "A"] [.exec [textRow "a"] fun _ => true] =
        .ok [some 0] :=
  ⟨rfl, uniqueMatch_of_length (by decide), by decide +kernel, by decide +kernel⟩

/-- Two executions with different dimensions. -/
def textRuns : List (FoldEvent (List Char)) :=
  [.exec [textRow "a", textRow "A", textRow "b"] fun _ => true, .rescan [textRow "b"],
    .exec [textRow "b", textRow "b"] fun _ => true]

/-- Under the default collation, both executions count the rows of their join. -/
theorem joinFold_correct_iff_default :
    joinFold textNode countRows [textRow "A"] textRuns = .ok [some 1, some 2] := by
  have hfits : ∀ s, FitsDim textNode [textRow s] := fun s => Nat.zero_le keyLimit
  have hunique : ∀ rows ∈ [textRow "A"] :: rescanDims textRuns,
      UniqueMatch textCatalog (textJoin 100).path rows := by
    intro rows hrows
    apply uniqueMatch_of_length
    simp only [textRuns, rescanDims, filterMap_cons, filterMap_nil, mem_cons,
      not_mem_nil, or_false] at hrows
    rcases hrows with rfl | rfl <;> exact le_refl 1
  have hagree : RunAgrees textCatalog (textJoin 100).path textNode [textRow "A"] [textRow "A"] false
      textRuns := by
    apply runAgrees_of_sameEq
    · intro x y
      show textEq 100 x y = textEq 100 y x
      simp [textEq, eq_comm]
    · rfl
    · intro rows hrows
      obtain rfl : rows = [textRow "b"] := by simpa [textRuns, rescanDims] using hrows
      exact hfits "b"
  have h := ((joinFold_correct_iff textCatalog (textJoin 100) textNode (planJoinFold_textJoin 100)
    textCatalog_lawful [textRow "A"] [textRow "A"] textRuns hunique).2.mpr ⟨hfits "A", hagree⟩) ℕ ℕ
      countRows
  rw [h]
  decide +kernel

end PgColumnar.Agg
