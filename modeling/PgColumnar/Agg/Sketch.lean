import PgColumnar.Encoding.BitStream

/-!
# The HyperLogLog sketch of `approx_count_distinct`

A sketch is a vector of registers, and adding a value is the join with the sketch of that value
alone.  So every way to reach a state (rows, partial states of workers sent as bytes and combined,
stored sketches of whole row groups) is a join of the same one-value sketches, and a join has no
order and no multiplicity.

## Main definitions

* `sketchAdd`, `mergeRegs` — one value more, and the union of two sketches.
* `Plan`, `ScanFold` — the ways to reach a state.

## Main results

* `sketch_plan_independent` — the registers do not depend on the plan.
-/

namespace PgColumnar.Agg

open Encoding List

/-- `PGC_SKETCH_LOG2M`. -/
def sketchLog2m : ℕ := 11

/-- `PGC_SKETCH_REGISTERS`. -/
def sketchRegisters : ℕ := 2048

/-- The registers, each a `uint8`. -/
abbrev Registers := Fin sketchRegisters → Fin 256

/-- The register a hash picks, its low bits. -/
def sketchIndex (h : Word) : Fin sketchRegisters := Fin.ofNat 2048 h.toNat

/-- The rank of a hash. -/
def sketchRank (h : Word) : Fin 256 :=
  let w := h >>> sketchLog2m
  if w = 0 then Fin.ofNat 256 (64 - sketchLog2m + 1) else Fin.ofNat 256
    (rightmostLoop 64 w.toNat + 1)

/-- `pgc_sketch_add`. -/
def sketchAdd (regs : Registers) (h : Word) : Registers :=
  if regs (sketchIndex h) < sketchRank h then
    Function.update regs (sketchIndex h) (sketchRank h)
  else regs

/-- The loop of `pgcolumnar_acd_combinefn`, and of the fold of a stored sketch. -/
def mergeRegs (a b : Registers) : Registers := fun j => if a j < b j then b j else a j

/-- `pgc_sketch_state_new`, and the registers of a new fold.  Of a state only the registers are
kept: its hash function is the one of the call. -/
def sketchStateNew : Registers := fun _ => 0

/-- The `memcpy` of registers that arrive as bytes, when there are as many. -/
def copyRegs (what : String) (bytes : List (Fin 256)) : Except String Registers :=
  if bytes.length ≠ sketchRegisters then
    .error (what ++ " is " ++ toString bytes.length ++ " bytes, want " ++ toString sketchRegisters)
  else .ok fun j => bytes.getD j 0

variable {V : Type}

/-- `pgcolumnar_acd_transfn`; `lookup` is the type's extended hash function under the call's
collation, or why the call cannot count. -/
def acdTransfn (lookup : Except String (V → Word)) (arg : Option Registers) (v : Option V) :
    Except String Registers :=
  let state := arg.getD sketchStateNew
  match v with
  | none => .ok state
  | some v => do
    let hash ← lookup
    return sketchAdd state (hash v)

/-- `pgcolumnar_acd_combinefn`. -/
def acdCombinefn : Option Registers → Option Registers → Option Registers
  | a, none => a
  | none, some b => some b
  | some a, some b => some (mergeRegs a b)

/-- `pgcolumnar_acd_serialfn`. -/
def acdSerialfn (state : Registers) : List (Fin 256) := List.ofFn state

/-- `pgcolumnar_acd_deserialfn`. -/
def acdDeserialfn : List (Fin 256) → Except String Registers :=
    copyRegs "approx_count_distinct state"

/-- How an executor reaches a state: rows of a group from the NULL state, states combined, and
states sent to another process. -/
inductive Plan (V : Type)
  | null
  | row (p : Plan V) (v : Option V)
  | combine (p q : Plan V)
  | send (p : Plan V)

/-- The state of a plan.  The functions that serialize are strict: NULL stays NULL. -/
def Plan.eval (lookup : Except String (V → Word)) : Plan V → Except String (Option Registers)
  | .null => .ok none
  | .row p v => do
    let state ← acdTransfn lookup (← p.eval lookup) v
    return some state
  | .combine p q => do
    let a ← p.eval lookup
    let b ← q.eval lookup
    return acdCombinefn a b
  | .send p => do
    match ← p.eval lookup with
    | none => return none
    | some state =>
      let received ← acdDeserialfn (acdSerialfn state)
      return some received

/-- The hashes of the values a plan reads. -/
def Plan.hashes (hash : V → Word) : Plan V → Multiset Word
  | .null => 0
  | .row p v => p.hashes hash + (v.map hash).toList
  | .combine p q => p.hashes hash + q.hashes hash
  | .send p => p.hashes hash

/-- What the aggregate scan folds: a row of a group it reads, or the stored sketch of a column of a
group, given by the values written to it. -/
inductive ScanFold (V : Type)
  | row (v : Option V)
  | stored (groupNumber columnIndex : ℕ) (vals : List (Option V))

/-- One fold into `spec->regs`, which stay NULL until there is something to keep:
`pgcolumnar_apply_one`, or `PgColumnarReadSketch` of what the writer stored and the loop over its
registers. -/
def ScanFold.apply (hash : V → Word) (regs : Option Registers) :
    ScanFold V → Except String (Option Registers)
  | .row none => .ok regs
  | .row (some v) => .ok (some (sketchAdd (regs.getD sketchStateNew) (hash v)))
  | .stored groupNumber columnIndex vals => do
    let written := (vals.filterMap (·.map hash)).foldl sketchAdd sketchStateNew
    let sketch ← copyRegs ("pgcolumnar sketch of row group " ++ toString groupNumber ++
      " column " ++
      toString columnIndex) (List.ofFn written)
    return some (mergeRegs (regs.getD sketchStateNew) sketch)

/-- The hashes of the values a fold stands for. -/
def ScanFold.hashes (hash : V → Word) : ScanFold V → Multiset Word
  | .row v => (v.map hash).toList
  | .stored _ _ vals => vals.filterMap (·.map hash)

/-! ### Adding is a join -/

/-- The sketch of one value. -/
def oneSketch (h : Word) : Registers := fun j => if j = sketchIndex h then sketchRank h else 0

theorem sketchAdd_eq (regs : Registers) (h : Word) : sketchAdd regs h = regs ⊔ oneSketch h := by
  funext j
  rw [Pi.sup_apply, oneSketch, sketchAdd]
  by_cases hj : j = sketchIndex h
  · subst hj
    rw [if_pos rfl]
    split
    · next hlt => rw [Function.update_self, max_eq_right hlt.le]
    · next hlt => rw [max_eq_left (not_lt.mp hlt)]
  · rw [if_neg hj, max_eq_left (Fin.zero_le _)]
    split
    · rw [Function.update_of_ne hj]
    · rfl

theorem mergeRegs_eq (a b : Registers) : mergeRegs a b = a ⊔ b := by
  funext j
  rw [Pi.sup_apply, mergeRegs]
  split
  · next hlt => rw [max_eq_right hlt.le]
  · next hlt => rw [max_eq_left (not_lt.mp hlt)]

instance : RightCommutative sketchAdd :=
  ⟨fun regs h h' => by simp only [sketchAdd_eq, sup_right_comm]⟩

/-- All hashes added to one empty sketch. -/
def sketchOf (hs : Multiset Word) : Registers := hs.foldl sketchAdd sketchStateNew

theorem foldl_sketchAdd (hs : Multiset Word) (regs : Registers) :
    hs.foldl sketchAdd regs = regs ⊔ sketchOf hs := by
  have hbot : ∀ r : Registers, sketchStateNew ⊔ r = r := bot_sup_eq
  unfold sketchOf
  induction hs using Multiset.induction generalizing regs with
  | empty => exact (sup_bot_eq regs).symm
  | cons h hs ih =>
    rw [Multiset.foldl_cons, Multiset.foldl_cons, ih, ih (sketchAdd sketchStateNew h), sketchAdd_eq,
      sketchAdd_eq, hbot, sup_assoc]

theorem sketchOf_add (s t : Multiset Word) : sketchOf (s + t) = sketchOf s ⊔ sketchOf t := by
  rw [← foldl_sketchAdd, sketchOf, Multiset.foldl_add]
  rfl

theorem copyRegs_ofFn (what : String) (regs : Registers) :
    copyRegs what (List.ofFn regs) = .ok regs := by
  have hget : ∀ {n : ℕ} (f : Fin n → Fin 256) (j : Fin n), (List.ofFn f).getD j 0 = f j := by
    intro n f j
    rw [getD_eq_getElem _ _ (by rw [length_ofFn]; exact j.isLt), List.getElem_ofFn]
  rw [copyRegs, if_neg (not_not.mpr length_ofFn)]
  exact congrArg Except.ok (funext (hget regs))

/-- The registers of a state: NULL stands for the empty sketch. -/
def registers (state : Option Registers) : Registers := state.getD sketchStateNew

theorem registers_combine (a b : Option Registers) :
    registers (acdCombinefn a b) = registers a ⊔ registers b := by
  have hbot : ∀ r : Registers, r ⊔ sketchStateNew = r := sup_bot_eq
  cases b with
  | none => exact (hbot _).symm
  | some b =>
    cases a with
    | none => exact ((sup_comm _ _).trans (hbot b)).symm
    | some a => exact mergeRegs_eq a b

variable {hash : V → Word} {hs : Multiset Word}

/-- A row adds its hash, a NULL nothing. -/
theorem sketchOf_add_toList (v : V) :
    sketchAdd (sketchOf hs) (hash v) = sketchOf (hs + ((some v).map hash).toList) := by
  rw [sketchOf, sketchOf, Multiset.foldl_add]
  rfl

/-- **A state is the sketch of the values its plan reads.** -/
theorem Plan.eval_eq (p : Plan V) :
    ∃ state, p.eval (.ok hash) = .ok state ∧ registers state = sketchOf (p.hashes hash) := by
  induction p with
  | null => exact ⟨none, rfl, rfl⟩
  | row p v ih =>
    obtain ⟨state, heval, hregs⟩ := ih
    rw [Plan.eval, heval]
    cases v with
    | none => exact ⟨_, rfl, hregs.trans (congrArg sketchOf (add_zero _).symm)⟩
    | some v =>
      refine ⟨_, rfl, ?_⟩
      rw [Plan.hashes, ← sketchOf_add_toList, ← hregs]
      rfl
  | combine p q ihp ihq =>
    obtain ⟨a, hevala, ha⟩ := ihp
    obtain ⟨b, hevalb, hb⟩ := ihq
    rw [Plan.eval, hevala, hevalb]
    exact ⟨_, rfl, by rw [registers_combine, ha, hb, Plan.hashes, sketchOf_add]⟩
  | send p ih =>
    obtain ⟨state, heval, hregs⟩ := ih
    rw [Plan.eval, heval]
    cases state with
    | none => exact ⟨none, rfl, hregs⟩
    | some regs =>
      refine ⟨some regs, ?_, hregs⟩
      simp only [bind, Except.bind, acdDeserialfn, acdSerialfn, copyRegs_ofFn]
      rfl

/-- The same for the folds of a scan. -/
theorem ScanFold.apply_eq (f : ScanFold V) {regs : Option Registers}
    (h : registers regs = sketchOf hs) :
    ∃ regs', f.apply hash regs = .ok regs' ∧ registers regs' = sketchOf (hs + f.hashes hash) := by
  cases f with
  | row v =>
    cases v with
    | none => exact ⟨regs, rfl, h.trans (congrArg sketchOf (add_zero hs).symm)⟩
    | some v =>
      refine ⟨_, rfl, ?_⟩
      rw [ScanFold.hashes, ← sketchOf_add_toList, ← h]
      rfl
  | stored groupNumber columnIndex vals =>
    refine ⟨some (mergeRegs (registers regs) (sketchOf ↑(vals.filterMap (·.map hash)))), ?_, ?_⟩
    · unfold ScanFold.apply
      simp only [copyRegs_ofFn]
      rfl
    · rw [ScanFold.hashes, sketchOf_add, ← h, ← mergeRegs_eq]
      rfl

theorem ScanFold.foldlM_eq (fs : List (ScanFold V)) {regs : Option Registers}
    (h : registers regs = sketchOf hs) :
    ∃ regs', fs.foldlM (ScanFold.apply hash) regs = .ok regs' ∧
      registers regs' = sketchOf (hs + (fs.map (ScanFold.hashes hash)).sum) := by
  induction fs generalizing regs hs with
  | nil => exact ⟨regs, rfl, by simpa using h⟩
  | cons f fs ih =>
    obtain ⟨regs', happly, hregs⟩ := f.apply_eq h
    obtain ⟨regs'', hfold, hregs'⟩ := ih hregs
    rw [foldlM_cons, happly]
    exact ⟨regs'', hfold, by rw [hregs', map_cons, sum_cons, add_assoc]⟩

/-- **The registers do not depend on the plan.**  Whatever the split of the values over rows,
partial states, messages between processes and stored sketches, the registers are those of all the
hashes added to one empty sketch, in any order; and the combine function, NULL states included, is
commutative, associative and idempotent. -/
theorem sketch_plan_independent (hash : V → Word) (p : Plan V) (fs : List (ScanFold V))
    (a b c : Option Registers) :
    (∃ state, p.eval (.ok hash) = .ok state ∧
      registers state = (p.hashes hash).foldl sketchAdd sketchStateNew) ∧
    (∃ regs, fs.foldlM (ScanFold.apply hash) none = .ok regs ∧
      registers regs = (fs.map (ScanFold.hashes hash)).sum.foldl sketchAdd sketchStateNew) ∧
    acdCombinefn a b = acdCombinefn b a ∧
    acdCombinefn (acdCombinefn a b) c = acdCombinefn a (acdCombinefn b c) ∧
    acdCombinefn a a = a := by
  refine ⟨p.eval_eq, ?_, ?_, ?_, ?_⟩
  · obtain ⟨regs, hrun, hregs⟩ := @ScanFold.foldlM_eq _ hash 0 fs none rfl
    exact ⟨regs, hrun, by rw [hregs, zero_add]; rfl⟩
  · cases a <;> cases b <;> simp [acdCombinefn, mergeRegs_eq, sup_comm]
  · cases a <;> cases b <;> cases c <;> simp [acdCombinefn, mergeRegs_eq, sup_assoc]
  · cases a <;> simp [acdCombinefn, mergeRegs_eq]

end PgColumnar.Agg
