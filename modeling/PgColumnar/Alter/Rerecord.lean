import PgColumnar.Lib.Run
import Mathlib.Algebra.Group.Int.Defs
import Mathlib.Logic.Function.Basic

/-!
# Projections over a replaced storage

A projection is declared for a relation and recorded for a storage.  A statement that
replaces the storage of a relation loses what is recorded, and the utility hook records the
declared projections again when the statement is over.

What to record again is kept in a list of the session, with the depth of nesting, which no
rollback restores: `TRUNCATE` puts on it each relation it reaches, and so do the maintenance
functions.  An `ALTER` or a `REFRESH` fills a transient relation, of which the list knows
nothing, so there the name in the statement is what counts.  Triggers and functions run
further statements, and blocks that catch an error roll the catalogs back.

## Main definitions

* `Session`, `step` — the stack of statements and blocks, and what the hook keeps between them.
* `Regular` — the runs in which what was drained is recorded again.
* `Inv` — what is owed, and by which statement.

## Main results

* `rerecorded` — projections survive a regular run.
-/

namespace PgColumnar.Rerecord

open List Option Function Nat

/-! ## Catalogs -/

/-- The catalogs, which a rollback restores. -/
structure Db (ν : Type) where
  /-- The storage id of a columnar table. -/
  storage : ℕ → Option ℕ
  /-- `pgcolumnar.projection` by storage id and name, the base projection left out. -/
  projections : List (ℕ × ν)
  /-- The declarations, by relation and name. -/
  declarations : List (ℕ × ν)

variable {ν : Type}

def Db.init : Db ν := ⟨fun _ => none, [], []⟩

/-- The projection is declared, but not recorded for the storage of the relation. -/
def Db.Missing (db : Db ν) (r : ℕ) (n : ν) : Prop :=
  (r, n) ∈ db.declarations ∧ ∃ sid, db.storage r = some sid ∧ (sid, n) ∉ db.projections

/-- `find_all_inheritors`: the relation comes first. -/
structure Inheritance where
  findAllInheritors : ℕ → List ℕ
  self_mem : ∀ r, r ∈ findAllInheritors r

/-- A new storage; what was recorded for the old one is deleted with it. -/
def Db.replaceStorage (db : Db ν) (r sid : ℕ) : Db ν :=
  { db with
    storage := Function.update db.storage r (some sid)
    projections := db.projections.filter fun p => decide (db.storage r ≠ some p.1) }

/-- A rewrite by a maintenance function, which records the projections of the old storage for the
new one. -/
def Db.vacuum (db : Db ν) (r sid : ℕ) : Db ν :=
  { db with
    storage := Function.update db.storage r (some sid)
    projections := db.projections.map fun p => if db.storage r = some p.1 then (sid, p.2) else p }

/-- `materialize_projection`, if the projection is not there, or a warning.  `fails` says which
cannot be materialized. -/
def materialize [DecidableEq ν] (fails : ℕ → ν → Bool) (r sid : ℕ) (x : Db ν × List (ℕ × ν))
    (n : ν) :
    Db ν × List (ℕ × ν) :=
  if (sid, n) ∈ x.1.projections then x
  else if fails r n = true then (x.1, x.2 ++ [(r, n)])
  else ({ x.1 with projections := x.1.projections ++ [(sid, n)] }, x.2)

/-- `PgColumnarRerecordProjectionsAfterRewrite` -/
def rerecord [DecidableEq ν] (fails : ℕ → ν → Bool) (x : Db ν × List (ℕ × ν)) (r : ℕ) :
    Db ν × List (ℕ × ν) :=
  match x.1.storage r with
  | none => x
  | some sid =>
    ((x.1.declarations.filter fun d => decide (d.1 = r)).map (·.2)).foldl
      (materialize fails r sid) x

/-! ## The session -/

/-- The utility statements, as far as the hook tells them apart. -/
inductive Utility where
  | truncate
  | alterTable (relation : ℕ)
  | refreshMatView (relation : ℕ)
  /-- Of a materialized view, or `CREATE TABLE AS`. -/
  | createTableAs (matview : Bool) (relation : ℕ)
  | other
  deriving DecidableEq

/-- The relation whose name the hook takes from the statement. -/
def Utility.named : Utility → Option ℕ
  | .alterTable r | .refreshMatView r | .createTableAs true r => some r
  | _ => none

/-- The hook records projections again after the statement. -/
def Utility.drains : Utility → Bool
  | .other => false
  | _ => true

/-- What the session is in: a utility statement, or a block that catches errors, with the catalogs
at its start and what was on the list then. -/
inductive Frame (ν : Type) where
  | utility (u : Utility)
  | subxact (saved : Db ν) (recorded : List ℕ)

def Frame.isUtility : Frame ν → Bool
  | .utility _ => true
  | .subxact _ _ => false

structure Session (ν : Type) where
  db : Db ν
  nextStorageId : ℕ
  /-- `pgcolumnar_rewritten_relids` -/
  rewritten : List ℕ
  /-- `pgcolumnar_utility_depth` -/
  depth : ℤ
  /-- `pgcolumnar_xact_cb_registered` -/
  registered : Bool
  stack : List (Frame ν)
  /-- The catalogs at the start of the transaction. -/
  start : Db ν
  /-- The projections that could not be restored, as the client was told. -/
  warnings : List (ℕ × ν)

def Session.init : Session ν := ⟨.init, 0, [], 0, false, [], .init, []⟩

/-- `pgcolumnar_record_rewritten` -/
def Session.recordRewritten (s : Session ν) (r : ℕ) : Session ν :=
  { s with
    registered := true
    rewritten := if r ∈ s.rewritten then s.rewritten else s.rewritten ++ [r] }

/-- `pgcolumnar_rewritten_xact_callback` -/
def Session.xactEnd (s : Session ν) : Session ν :=
  if s.registered = true then { s with rewritten := [], depth := 0 } else s

/-- An error leaves the statements of the stack, up to a block that catches it or to the abort of
the transaction. -/
def unwind (s : Session ν) : List (Frame ν) → Session ν
  | [] => { s with db := s.start, stack := [] }.xactEnd
  | .utility _ :: rest => unwind { s with depth := s.depth - 1 } rest
  | .subxact saved _ :: rest => { s with db := saved, stack := rest }

/-- The entry of `pgcolumnar_process_utility`, before the statement is looked at. -/
def Session.enter (s : Session ν) : Session ν :=
  { s with
    rewritten := if s.depth = 0 then [] else s.rewritten
    depth := s.depth + 1 }

/-- What is recorded again after a statement: what is on the list, and what the statement names,
if the name resolves. -/
def Session.targets (s : Session ν) (u : Utility) (resolved : Option ℕ) : List ℕ :=
  if u.named.isSome = true then
    s.rewritten ++ resolved.toList.filter fun r => decide (r ∉ s.rewritten)
  else s.rewritten

variable (I : Inheritance)

/-- The end of `pgcolumnar_process_utility`, for a statement that is over. -/
def Session.drain [DecidableEq ν] (s : Session ν) (u : Utility) (resolved : Option ℕ)
    (fails : ℕ → ν → Bool) : Session ν :=
  if u.drains = true then
    let targets := s.targets u resolved
    let x := (targets.flatMap I.findAllInheritors).foldl (rerecord fails) (s.db, s.warnings)
    { s with
      db := x.1
      warnings := x.2
      rewritten := s.rewritten.filter fun r => decide (r ∉ targets) }
  else s

inductive Action (ν : Type) where
  | createTable (r : ℕ)
  /-- `pgcolumnar.add_projection` -/
  | addProjection (r : ℕ) (n : ν)
  | beginUtility (u : Utility)
  /-- The checks of the hook on an `ALTER TABLE` raise an error. -/
  | rejectUtility
  /-- `TRUNCATE` replaces the storage of a relation. -/
  | truncateStorage (r : ℕ)
  /-- The storage is replaced through a transient relation. -/
  | rewriteStorage (r : ℕ)
  /-- A maintenance function -/
  | vacuum (r : ℕ)
  /-- A logical replication worker truncates a relation. -/
  | applyTruncate (r : ℕ)
  | beginSub
  | releaseSub
  | raise
  /-- The statement is over; the name in it resolves to this relation. -/
  | endUtility (resolved : Option ℕ) (fails : ℕ → ν → Bool)
  /-- The repair after a statement raises an error. -/
  | raiseInDrain
  | commit

/-- A storage is replaced, and the callback of the relation is told. -/
def Session.replaceRecorded (s : Session ν) (r : ℕ) : Session ν :=
  { s with
    db := s.db.replaceStorage r s.nextStorageId
    nextStorageId := s.nextStorageId + 1 }.recordRewritten r

def step [DecidableEq ν] (s : Session ν) : Action ν → Option (Session ν)
  | .createTable r =>
    if s.db.storage r = none ∧ ∀ d ∈ s.db.declarations, d.1 ≠ r then
      some { s with
        db := { s.db with storage := Function.update s.db.storage r (some s.nextStorageId) }
        nextStorageId := s.nextStorageId + 1 }
    else none
  | .addProjection r n => (s.db.storage r).map fun sid =>
      { s with db := { s.db with
          projections := s.db.projections ++ [(sid, n)]
          declarations := s.db.declarations ++ [(r, n)] } }
  | .beginUtility u => some { s.enter with stack := .utility u :: s.stack }
  | .rejectUtility => some (unwind s.enter s.stack)
  | .truncateStorage r =>
    match s.stack with
    | .utility .truncate :: _ => (s.db.storage r).map fun _ => s.replaceRecorded r
    | _ => none
  | .rewriteStorage r =>
    match s.stack with
    | .utility u :: _ =>
      if u = .truncate ∨ u = .other then none
      else (s.db.storage r).map fun _ =>
        { s with
          db := s.db.replaceStorage r s.nextStorageId
          nextStorageId := s.nextStorageId + 1 }
    | _ => none
  | .vacuum r => (s.db.storage r).map fun _ =>
      { s with
        db := s.db.vacuum r s.nextStorageId
        nextStorageId := s.nextStorageId + 1 }.recordRewritten r
  | .applyTruncate r => (s.db.storage r).map fun _ => s.replaceRecorded r
  | .beginSub => some { s with stack := .subxact s.db s.rewritten :: s.stack }
  | .releaseSub =>
    match s.stack with
    | .subxact _ _ :: rest => some { s with stack := rest }
    | _ => none
  | .raise => some (unwind s s.stack)
  | .endUtility resolved fails =>
    match s.stack with
    | .utility u :: rest =>
      some { s.drain I u resolved fails with depth := s.depth - 1, stack := rest }
    | _ => none
  | .raiseInDrain =>
    match s.stack with
    | .utility _ :: rest => some (unwind s rest)
    | _ => none
  | .commit =>
    if s.stack.all Frame.isUtility = true then some { s with start := s.db }.xactEnd else none

/-- The block that catches an error. -/
def caughtBy : List (Frame ν) → Option (Db ν × List ℕ)
  | [] => none
  | .utility _ :: rest => caughtBy rest
  | .subxact saved recorded :: _ => some (saved, recorded)

/-- The steps on which the hook does what it is for.  Its own errors are not caught, and end the
transaction through the callback; a block that is rolled back has not taken from the list what was
on it before and is lost again; a rewrite is of the named relation or an inheritor, whose name
still resolves; no relation with declared projections is truncated by a worker; and no transaction
ends inside a statement. -/
def Regular (s : Session ν) : Action ν → Prop
  | .rejectUtility | .raiseInDrain => s.registered = true ∧ caughtBy s.stack = none
  | .raise => ∀ saved recorded, caughtBy s.stack = some (saved, recorded) →
      ∀ r ∈ recorded, (∃ n, saved.Missing r n) → r ∈ s.rewritten
  | .rewriteStorage r => ∀ u rest, s.stack = .utility u :: rest →
      ∃ m, u.named = some m ∧ r ∈ I.findAllInheritors m
  | .applyTruncate r => ∀ n, (r, n) ∉ s.db.declarations
  | .endUtility resolved _ => ∀ u rest, s.stack = .utility u :: rest →
      ∀ m, u.named = some m → resolved = some m
  | .commit => s.stack = []
  | _ => True

/-! ## What is owed -/

variable {I} {db db' saved : Db ν} {r sid : ℕ} {n : ν} {w w' : List (ℕ × ν)} {rewritten : List ℕ}
  {stack rest : List (Frame ν)} {fails : ℕ → ν → Bool} {s s' : Session ν}

/-- A statement that is open is to record the projections of the relation again. -/
def Owed (I : Inheritance) (rewritten : List ℕ) (stack : List (Frame ν)) (r : ℕ) : Prop :=
  (r ∈ rewritten ∧ ∃ u, .utility u ∈ stack ∧ u.drains = true) ∨
    ∃ u m, .utility u ∈ stack ∧ u.named = some m ∧ r ∈ I.findAllInheritors m

/-- What is missing is owed, or was warned about. -/
def Covered (I : Inheritance) (db : Db ν) (w : List (ℕ × ν)) (rewritten : List ℕ)
    (stack : List (Frame ν)) : Prop :=
  ∀ r n, db.Missing r n → (r, n) ∈ w ∨ Owed I rewritten stack r

theorem Owed.mono {rewritten' : List ℕ} {stack' : List (Frame ν)} (h : Owed I rewritten stack r)
    (hlist : r ∈ rewritten → r ∈ rewritten')
    (hstack : ∀ u, .utility u ∈ stack → .utility u ∈ stack') : Owed I rewritten' stack' r := by
  obtain ⟨hr, u, hu, hd⟩ | ⟨u, m, hu, hm⟩ := h
  · exact .inl ⟨hlist hr, u, hstack u hu, hd⟩
  · exact .inr ⟨u, m, hstack u hu, hm⟩

theorem not_owed_of_no_utility (h : ∀ u, .utility u ∉ stack) : ¬ Owed I rewritten stack r := by
  intro howed
  obtain ⟨-, u, hu, -⟩ | ⟨u, m, hu, -⟩ := howed
  · exact h u hu
  · exact h u hu

theorem Covered.warn (h : Covered I db w rewritten stack) (hw : w ⊆ w') :
    Covered I db w' rewritten stack :=
  fun r n hm => (h r n hm).imp_left fun hmem => hw hmem

/-- Storage ids are of one relation, and below the next. -/
structure Db.Wf (db : Db ν) (next : ℕ) : Prop where
  below : ∀ r sid, db.storage r = some sid → sid < next
  inj : ∀ r r' sid, db.storage r = some sid → db.storage r' = some sid → r = r'
  recorded : ∀ p ∈ db.projections, p.1 < next

variable {next : ℕ}

theorem Db.Wf.mono {next' : ℕ} (h : db.Wf next) (hle : next ≤ next') : db.Wf next' :=
  ⟨fun r sid hs => Nat.lt_of_lt_of_le (h.below r sid hs) hle, h.inj,
    fun p hp => Nat.lt_of_lt_of_le (h.recorded p hp) hle⟩

theorem Db.Wf.init : (Db.init : Db ν).Wf 0 :=
  ⟨nofun, nofun, nofun⟩

/-- A fresh storage id for one relation. -/
theorem Db.Wf.update (h : db.Wf next) (projections : List (ℕ × ν))
    (hp : ∀ p ∈ projections, p.1 < next + 1) (declarations : List (ℕ × ν)) (r : ℕ) :
    (⟨Function.update db.storage r (some next), projections, declarations⟩ : Db ν).Wf
      (next + 1) := by
  have hold : ∀ q sid, Function.update db.storage r (some next) q = some sid →
      q = r ∧ sid = next ∨ q ≠ r ∧ db.storage q = some sid := by
    intro q sid hq
    by_cases hqr : q = r
    · rw [hqr, update_self] at hq
      exact .inl ⟨hqr, (Option.some.inj hq).symm⟩
    · rw [update_of_ne hqr] at hq
      exact .inr ⟨hqr, hq⟩
  refine ⟨fun q sid hq => ?_, fun q q' sid hq hq' => ?_, hp⟩
  · obtain ⟨-, rfl⟩ | ⟨-, hq⟩ := hold q sid hq
    · exact lt_succ_self _
    · exact lt_succ_of_lt (h.below q sid hq)
  · obtain ⟨hqr, hsid⟩ | ⟨-, hold₁⟩ := hold q sid hq
    · obtain ⟨hqr', -⟩ | ⟨-, hold₂⟩ := hold q' sid hq'
      · rw [hqr, hqr']
      · have := h.below q' sid hold₂
        omega
    · obtain ⟨-, hsid⟩ | ⟨-, hold₂⟩ := hold q' sid hq'
      · have := h.below q sid hold₁
        omega
      · exact h.inj q q' sid hold₁ hold₂

/-! ## Recording again -/

/-- Projections are added, the rest of the catalogs stays, and warnings are added. -/
structure Repairs (x x' : Db ν × List (ℕ × ν)) : Prop where
  storage : x'.1.storage = x.1.storage
  declarations : x'.1.declarations = x.1.declarations
  projections : x.1.projections ⊆ x'.1.projections
  warnings : x.2 ⊆ x'.2
  added : ∀ p ∈ x'.1.projections, p ∈ x.1.projections ∨ ∃ r, x.1.storage r = some p.1

variable {x x' x'' : Db ν × List (ℕ × ν)}

theorem Repairs.refl (x : Db ν × List (ℕ × ν)) : Repairs x x :=
  ⟨rfl, rfl, List.Subset.refl _, List.Subset.refl _, fun _ hp => .inl hp⟩

theorem Repairs.trans (h : Repairs x x') (h' : Repairs x' x'') : Repairs x x'' := by
  refine ⟨h'.storage.trans h.storage, h'.declarations.trans h.declarations,
    List.Subset.trans h.projections h'.projections, List.Subset.trans h.warnings h'.warnings, ?_⟩
  intro p hp
  rcases h'.added p hp with hp | hp
  · exact h.added p hp
  · rw [h.storage] at hp
    exact .inr hp

theorem Repairs.missing (h : Repairs x x') (hm : x'.1.Missing r n) : x.1.Missing r n := by
  obtain ⟨hd, sid, hs, hp⟩ := hm
  rw [h.declarations] at hd
  rw [h.storage] at hs
  exact ⟨hd, sid, hs, fun hmem => hp (h.projections hmem)⟩

theorem Repairs.wf (h : Repairs x x') (hwf : x.1.Wf next) : x'.1.Wf next := by
  refine ⟨?_, ?_, fun p hp => ?_⟩
  · rw [h.storage]
    exact hwf.below
  · rw [h.storage]
    exact hwf.inj
  · rcases h.added p hp with hp | hp
    · exact hwf.recorded p hp
    · obtain ⟨r, hr⟩ := hp
      exact hwf.below r p.1 hr

section Recording

variable [DecidableEq ν]

theorem repairs_materialize (hs : x.1.storage r = some sid) (n : ν) :
    Repairs x (materialize fails r sid x n) ∧
      ((materialize fails r sid x n).1.Missing r n → (r, n) ∈ (materialize fails r sid x n).2) := by
  unfold materialize
  by_cases hp : (sid, n) ∈ x.1.projections
  · rw [if_pos hp]
    refine ⟨.refl x, fun hm => ?_⟩
    obtain ⟨-, sid', hs', hp'⟩ := hm
    rw [hs] at hs'
    cases hs'
    exact absurd hp hp'
  · rw [if_neg hp]
    by_cases hf : fails r n = true
    · rw [if_pos hf]
      exact ⟨⟨rfl, rfl, List.Subset.refl _, subset_append_left _ _, fun _ hq => .inl hq⟩,
        fun _ => mem_append_right _ (mem_singleton_self _)⟩
    · rw [if_neg hf]
      refine ⟨⟨rfl, rfl, subset_append_left _ _, List.Subset.refl _, ?_⟩, fun hm => ?_⟩
      · refine forall_mem_append.mpr ⟨fun p hq => .inl hq, forall_mem_singleton.mpr ?_⟩
        exact .inr ⟨r, hs⟩
      · obtain ⟨-, sid', hs', hp'⟩ := hm
        rw [hs] at hs'
        cases hs'
        exact absurd (mem_append_right _ (mem_singleton_self _)) hp'

theorem repairs_foldl_materialize (hs : x.1.storage r = some sid) (names : List ν) :
    Repairs x (names.foldl (materialize fails r sid) x) ∧
      ∀ n ∈ names, (names.foldl (materialize fails r sid) x).1.Missing r n →
        (r, n) ∈ (names.foldl (materialize fails r sid) x).2 := by
  induction names generalizing x with
  | nil => exact ⟨.refl x, fun n hn => absurd hn not_mem_nil⟩
  | cons n names ih =>
    obtain ⟨hone, hn⟩ := @repairs_materialize _ r sid fails x _ hs n
    obtain ⟨hrest, hnames⟩ := @ih (materialize fails r sid x n) (by rw [hone.storage, hs])
    refine ⟨hone.trans hrest, fun m hm hmiss => ?_⟩
    rcases mem_cons.mp hm with rfl | hm
    · exact hrest.warnings (hn (hrest.missing hmiss))
    · exact hnames m hm hmiss

/-- One relation: what is still missing has been warned about. -/
theorem repairs_rerecord (r : ℕ) : Repairs x (rerecord fails x r) ∧
    ∀ n, (rerecord fails x r).1.Missing r n → (r, n) ∈ (rerecord fails x r).2 := by
  unfold rerecord
  cases hs : x.1.storage r with
  | none =>
    refine ⟨.refl x, fun n hm => ?_⟩
    obtain ⟨-, sid, hs', -⟩ := hm
    rw [hs] at hs'
    cases hs'
  | some sid =>
    obtain ⟨hrep, hnames⟩ := repairs_foldl_materialize hs
      ((x.1.declarations.filter fun d => decide (d.1 = r)).map (·.2))
    refine ⟨hrep, fun n hm => hnames n ?_ hm⟩
    have hd := (hrep.missing hm).1
    exact mem_map.mpr ⟨(r, n), mem_filter.mpr ⟨hd, decide_eq_true rfl⟩, rfl⟩

theorem repairs_foldl_rerecord (rs : List ℕ) : Repairs x (rs.foldl (rerecord fails) x) ∧
    ∀ r ∈ rs, ∀ n, (rs.foldl (rerecord fails) x).1.Missing r n →
      (r, n) ∈ (rs.foldl (rerecord fails) x).2 := by
  induction rs generalizing x with
  | nil => exact ⟨.refl x, fun r hr => absurd hr not_mem_nil⟩
  | cons r rs ih =>
    obtain ⟨hone, hr⟩ := @repairs_rerecord _ fails x _ r
    obtain ⟨hrest, hall⟩ := @ih (rerecord fails x r)
    refine ⟨hone.trans hrest, fun q hq n hmiss => ?_⟩
    rcases mem_cons.mp hq with rfl | hq
    · exact hrest.warnings (hr n (hrest.missing hmiss))
    · exact hall q hq n hmiss

end Recording

/-! ## Replacing a storage -/

/-- What becomes missing is of the relation. -/
theorem missing_replaceStorage (h : db.Wf next) {q : ℕ}
    (hm : (db.replaceStorage r sid).Missing q n) : q = r ∨ db.Missing q n := by
  by_cases hq : q = r
  · exact .inl hq
  obtain ⟨hd, sid', hs, hp⟩ := hm
  have hs' : Function.update db.storage r (some sid) q = some sid' := hs
  rw [update_of_ne hq] at hs'
  refine .inr ⟨hd, sid', hs', fun hmem => hp (mem_filter.mpr ⟨hmem, decide_eq_true ?_⟩)⟩
  exact fun hr => hq (h.inj q r sid' hs' hr)

/-- A maintenance function loses nothing. -/
theorem missing_vacuum (h : db.Wf next) {q old : ℕ} (hr : db.storage r = some old)
    (hm : (db.vacuum r sid).Missing q n) : db.Missing q n := by
  obtain ⟨hd, sid', hs, hp⟩ := hm
  replace hs : Function.update db.storage r (some sid) q = some sid' := hs
  refine ⟨hd, ?_⟩
  by_cases hq : q = r
  · rw [hq, update_self] at hs
    cases hs
    refine ⟨old, hq ▸ hr, fun hmem => hp (mem_map.mpr ⟨_, hmem, ?_⟩)⟩
    rw [hr, if_pos rfl]
  · rw [update_of_ne hq] at hs
    refine ⟨sid', hs, fun hmem => hp (mem_map.mpr ⟨_, hmem, ?_⟩)⟩
    exact if_neg fun hr' => hq (h.inj q r sid' hs hr')

theorem wf_replaceStorage (h : db.Wf next) (r : ℕ) : (db.replaceStorage r next).Wf (next + 1) := by
  refine h.update _ (fun p hp => ?_) _ r
  exact lt_succ_of_lt (h.recorded p (mem_filter.mp hp).1)

theorem wf_vacuum (h : db.Wf next) (r : ℕ) : (db.vacuum r next).Wf (next + 1) := by
  refine h.update _ (fun p hp => ?_) _ r
  obtain ⟨q, hq, rfl⟩ := mem_map.mp hp
  split
  · exact lt_succ_self _
  · exact lt_succ_of_lt (h.recorded q hq)

/-! ## The invariant -/

/-- What a block would restore is covered by the statements around the block. -/
def Saved (I : Inheritance) (next : ℕ) (w : List (ℕ × ν)) : List (Frame ν) → Prop
  | [] => True
  | .utility _ :: rest => Saved I next w rest
  | .subxact saved recorded :: rest =>
    saved.Wf next ∧ Covered I saved w recorded rest ∧ Saved I next w rest

theorem Saved.mono {next' : ℕ} (h : Saved I next w stack) (hle : next ≤ next')
    (hw : w ⊆ w') : Saved I next' w' stack := by
  induction stack with
  | nil => trivial
  | cons f rest ih =>
    cases f with
    | utility u => exact ih h
    | subxact saved recorded => exact ⟨h.1.mono hle, h.2.1.warn hw, ih h.2.2⟩

/-- The number of statements that are open. -/
def utilities (stack : List (Frame ν)) : ℕ := stack.countP Frame.isUtility

structure Inv (I : Inheritance) (s : Session ν) : Prop where
  wf : s.db.Wf s.nextStorageId
  depth : s.depth = utilities s.stack
  covered : Covered I s.db s.warnings s.rewritten s.stack
  saved : Saved I s.nextStorageId s.warnings s.stack
  startWf : s.start.Wf s.nextStorageId
  start : Covered I s.start s.warnings [] []
  registered : s.registered = false → s.rewritten = []

theorem Inv.init : Inv I (Session.init : Session ν) :=
  ⟨.init, rfl, fun _ _ hm => absurd hm.1 not_mem_nil, trivial, .init,
    fun _ _ hm => absurd hm.1 not_mem_nil, fun _ => rfl⟩

theorem not_utility_mem (h : utilities stack = 0) (u : Utility) : .utility u ∉ stack :=
  fun hu => countP_eq_zero.mp h _ hu rfl

/-- Where no statement is open, the list does not matter. -/
theorem Covered.of_nil (h : Covered I db w rewritten stack) (hu : ∀ u, .utility u ∉ stack)
    (rewritten' : List ℕ) (stack' : List (Frame ν)) : Covered I db w rewritten' stack' := by
  intro r n hm
  rcases h r n hm with hw | howed
  · exact .inl hw
  · exact absurd howed (not_owed_of_no_utility hu)

/-- **An error** that is caught in a regular way, or ends the transaction. -/
theorem Inv.unwind (hsaved : Saved I s.nextStorageId s.warnings stack)
    (hstartWf : s.start.Wf s.nextStorageId) (hstart : Covered I s.start s.warnings [] [])
    (hreg : s.registered = false → s.rewritten = [])
    (hcaught : ∀ saved recorded, caughtBy stack = some (saved, recorded) →
      ∀ r ∈ recorded, (∃ n, saved.Missing r n) → r ∈ s.rewritten)
    (hdepth : s.depth = utilities stack ∨ s.registered = true ∧ caughtBy stack = none) :
    Inv I (unwind s stack) := by
  induction stack generalizing s with
  | nil =>
    have hcov : ∀ l, Covered I s.start s.warnings l ([] : List (Frame ν)) := fun l =>
      hstart.of_nil (fun u => not_mem_nil) l []
    unfold Rerecord.unwind Session.xactEnd
    split
    · exact ⟨hstartWf, rfl, hcov _, trivial, hstartWf, hstart, fun _ => rfl⟩
    · next hr =>
      rcases hdepth with hdepth | hdepth
      · exact ⟨hstartWf, hdepth, hcov _, trivial, hstartWf, hstart, hreg⟩
      · exact absurd hdepth.1 hr
  | cons f rest ih =>
    cases f with
    | utility u =>
      refine @ih { s with depth := s.depth - 1 } hsaved hstartWf hstart hreg hcaught ?_
      refine hdepth.imp_left fun hd => ?_
      have hcount : utilities (.utility u :: rest) = utilities rest + 1 :=
        countP_cons_of_pos rfl
      show s.depth - 1 = _
      rw [hd, hcount]
      omega
    | subxact saved recorded =>
      rcases hdepth with hdepth | hdepth
      · refine ⟨hsaved.1, hdepth, fun r n hm => ?_, hsaved.2.2, hstartWf, hstart, hreg⟩
        -- what the block restores was on the list before it, and still is
        refine (hsaved.2.1 r n hm).imp_right fun howed => howed.mono ?_ fun u hu => hu
        exact fun hr => hcaught saved recorded rfl r hr ⟨n, hm⟩
      · cases hdepth.2

/-- A relation is recorded, and its storage replaced. -/
theorem Inv.replaceRecorded (h : Inv I s)
    (howed : ∀ n, (s.db.replaceStorage r s.nextStorageId).Missing r n →
      ∃ u, .utility u ∈ s.stack ∧ u.drains = true) : Inv I (s.replaceRecorded r) := by
  have hlist : ∀ q ∈ s.rewritten, q ∈ (s.replaceRecorded r).rewritten := by
    intro q hq
    unfold Session.replaceRecorded Session.recordRewritten
    simp only
    split
    · exact hq
    · exact mem_append_left _ hq
  have hmem : r ∈ (s.replaceRecorded r).rewritten := by
    unfold Session.replaceRecorded Session.recordRewritten
    simp only
    split
    · next hr => exact hr
    · exact mem_append_right _ (mem_singleton_self r)
  refine ⟨wf_replaceStorage h.wf r, h.depth, fun q n hm => ?_,
    h.saved.mono (le_succ _) (List.Subset.refl _), h.startWf.mono (le_succ _), h.start, nofun⟩
  rcases missing_replaceStorage h.wf hm with rfl | hold
  · exact .inr (.inl ⟨hmem, howed n hm⟩)
  · exact (h.covered q n hold).imp_right fun ho => ho.mono (hlist q) fun u hu => hu

variable {resolved : Option ℕ}

/-- The end of a statement: its own debts are paid. -/
theorem Inv.drain [DecidableEq ν] {u : Utility} (h : Inv I s)
    (hstack : s.stack = .utility u :: rest)
    (hname : ∀ m, u.named = some m → resolved = some m) :
    Inv I { s.drain I u resolved fails with depth := s.depth - 1, stack := rest } := by
  have hcount : utilities s.stack = utilities rest + 1 := by
    rw [hstack]
    exact countP_cons_of_pos rfl
  have hdepth : s.depth - 1 = utilities rest := by
    rw [h.depth, hcount]
    omega
  have hsaved : Saved I s.nextStorageId s.warnings rest := by
    have := h.saved
    rwa [hstack] at this
  unfold Session.drain
  split
  · next hd =>
    -- the hook records for the relations rewritten and the one that is named
    have htarget : ∀ q ∈ s.rewritten, q ∈ s.targets u resolved := by
      intro q hq
      unfold Session.targets
      split
      · exact mem_append_left _ hq
      · exact hq
    have hnamed : ∀ m, u.named = some m → m ∈ s.targets u resolved := by
      intro m hm
      unfold Session.targets
      rw [hm, if_pos isSome_some, hname m hm]
      by_cases hmem : m ∈ s.rewritten
      · exact mem_append_left _ hmem
      · refine mem_append_right _ (mem_filter.mpr ⟨?_, decide_eq_true hmem⟩)
        exact mem_singleton_self m
    obtain ⟨hrep, hall⟩ := @repairs_foldl_rerecord _ fails (s.db, s.warnings) _
      ((s.targets u resolved).flatMap I.findAllInheritors)
    refine ⟨hrep.wf h.wf, hdepth, fun q n hm => ?_, hsaved.mono (Nat.le_refl _) hrep.warnings,
      h.startWf, h.start.warn hrep.warnings, fun hr => ?_⟩
    · have hkin : ∀ m ∈ s.targets u resolved, q ∈ I.findAllInheritors m → (q, n) ∈
          (((s.targets u resolved).flatMap I.findAllInheritors).foldl (rerecord fails)
            (s.db, s.warnings)).2 :=
        fun m hmt hq => hall q (mem_flatMap.mpr ⟨m, hmt, hq⟩) n hm
      -- what was missing is owed by this statement, or by one further out
      rcases h.covered q n (hrep.missing hm) with hw | howed
      · exact .inl (hrep.warnings hw)
      · obtain ⟨hq, -⟩ | ⟨u', m, hu', hm', hq⟩ := howed
        · exact .inl (hkin q (htarget q hq) (I.self_mem q))
        · rw [hstack] at hu'
          rcases mem_cons.mp hu' with heq | hu'
          · cases heq
            exact .inl (hkin m (hnamed m hm') hq)
          · exact .inr (.inr ⟨u', m, hu', hm', hq⟩)
    · show s.rewritten.filter _ = []
      rw [h.registered hr]
      rfl
  · next hd =>
    refine ⟨h.wf, hdepth, fun q n hm => ?_, hsaved, h.startWf, h.start, h.registered⟩
    -- nothing is owed by a statement at whose end the hook does nothing
    have hother : u = .other := by
      cases u <;> first | rfl | exact absurd rfl hd
    refine (h.covered q n hm).imp_right fun howed => ?_
    rw [hstack, hother] at howed
    obtain ⟨hq, u', hu', hd'⟩ | ⟨u', m, hu', hm', hq⟩ := howed
    · rcases mem_cons.mp hu' with heq | hu'
      · cases heq
        cases hd'
      · exact .inl ⟨hq, u', hu', hd'⟩
    · rcases mem_cons.mp hu' with heq | hu'
      · cases heq
        cases hm'
      · exact .inr ⟨u', m, hu', hm', hq⟩

/-- **One step.**  What is lost is owed by a statement that is still open, and what a block would
restore is owed by a statement around it. -/
theorem Inv.step [DecidableEq ν] {a : Action ν} (h : Inv I s) (hok : Regular I s a)
    (hstep : step I s a = some s') : Inv I s' := by
  have hle := le_succ s.nextStorageId
  cases a with
  | createTable r =>
    obtain ⟨hfree, hstep⟩ := ite_none_right_eq_some.mp hstep
    cases hstep
    refine ⟨h.wf.update _ (fun p hp => lt_succ_of_lt (h.wf.recorded p hp)) _ r, h.depth, ?_,
      h.saved.mono hle (List.Subset.refl _), h.startWf.mono hle, h.start, h.registered⟩
    intro q n hm
    obtain ⟨hd, sid, hs, hp⟩ := hm
    have hq : q ≠ r := hfree.2 _ hd
    replace hs : Function.update s.db.storage r (some s.nextStorageId) q = some sid := hs
    rw [update_of_ne hq] at hs
    exact h.covered q n ⟨hd, sid, hs, hp⟩
  | addProjection r n =>
    obtain ⟨sid, hs, rfl⟩ := map_eq_some_iff.mp hstep
    refine ⟨⟨h.wf.below, h.wf.inj, fun p hp => ?_⟩, h.depth, ?_, h.saved, h.startWf, h.start,
      h.registered⟩
    · rcases mem_append.mp hp with hp | hp
      · exact h.wf.recorded p hp
      · rw [mem_singleton.mp hp]
        exact h.wf.below r sid hs
    · intro q m hm
      obtain ⟨hd, sid', hs', hp⟩ := hm
      rcases mem_append.mp hd with hd | hd
      · exact h.covered q m ⟨hd, sid', hs', fun hmem => hp (mem_append_left _ hmem)⟩
      · cases mem_singleton.mp hd
        rw [hs] at hs'
        cases hs'
        exact absurd (mem_append_right _ (mem_singleton_self _)) hp
  | beginUtility u =>
    cases hstep
    have hcov : Covered I s.db s.warnings s.enter.rewritten s.stack := by
      unfold Session.enter
      simp only
      split
      · next hd =>
        -- the outermost statement begins: nothing is owed, and the list is emptied
        have hzero : utilities s.stack = 0 := by
          have := h.depth
          omega
        exact h.covered.of_nil (not_utility_mem hzero) [] s.stack
      · exact h.covered
    refine ⟨h.wf, ?_, fun q n hm => ?_, h.saved, h.startWf, h.start, fun hr => ?_⟩
    · have hcount : utilities (.utility u :: s.stack) = utilities s.stack + 1 :=
        countP_cons_of_pos rfl
      show s.depth + 1 = _
      rw [hcount, h.depth]
      rfl
    · exact (hcov q n hm).imp_right fun ho => ho.mono id fun v hv => mem_cons_of_mem _ hv
    · show (if s.depth = 0 then [] else s.rewritten) = []
      rw [h.registered hr, ite_self]
  | rejectUtility =>
    cases hstep
    refine .unwind h.saved h.startWf h.start ?_ ?_ (.inr hok)
    · intro hr
      exact absurd hok.1 (ne_true_of_eq_false hr)
    · intro saved recorded hc
      rw [hok.2] at hc
      cases hc
  | truncateStorage r =>
    simp only [Rerecord.step] at hstep
    split at hstep
    · next rest hstack =>
      obtain ⟨sid, -, rfl⟩ := map_eq_some_iff.mp hstep
      refine h.replaceRecorded fun n _ => ⟨.truncate, ?_, rfl⟩
      rw [hstack]
      exact mem_cons_self
    · cases hstep
  | rewriteStorage r =>
    simp only [Rerecord.step] at hstep
    split at hstep
    · next u rest hstack =>
      split at hstep
      · cases hstep
      · obtain ⟨sid, -, rfl⟩ := map_eq_some_iff.mp hstep
        refine ⟨wf_replaceStorage h.wf r, h.depth, fun q n hm => ?_,
          h.saved.mono hle (List.Subset.refl _), h.startWf.mono hle, h.start, h.registered⟩
        rcases missing_replaceStorage h.wf hm with rfl | hold
        · obtain ⟨m, hm, hq⟩ := hok u rest hstack
          refine .inr (.inr ⟨u, m, ?_, hm, hq⟩)
          show _ ∈ s.stack
          rw [hstack]
          exact mem_cons_self
        · exact h.covered q n hold
    · cases hstep
  | vacuum r =>
    obtain ⟨sid, hs, rfl⟩ := map_eq_some_iff.mp hstep
    refine ⟨wf_vacuum h.wf r, h.depth, fun q n hm => ?_,
      h.saved.mono hle (List.Subset.refl _), h.startWf.mono hle, h.start, nofun⟩
    refine (h.covered q n (missing_vacuum h.wf hs hm)).imp_right fun ho => ho.mono ?_ fun u hu => hu
    intro hq
    unfold Session.recordRewritten
    simp only
    split
    · exact hq
    · exact mem_append_left _ hq
  | applyTruncate r =>
    obtain ⟨sid, -, rfl⟩ := map_eq_some_iff.mp hstep
    exact h.replaceRecorded fun n hm => absurd hm.1 (hok n)
  | beginSub =>
    cases hstep
    refine ⟨h.wf, h.depth, fun q n hm => ?_, ⟨h.wf, h.covered, h.saved⟩, h.startWf, h.start,
      h.registered⟩
    exact (h.covered q n hm).imp_right fun ho => ho.mono id fun u hu => mem_cons_of_mem _ hu
  | releaseSub =>
    simp only [Rerecord.step] at hstep
    split at hstep
    · next saved recorded rest hstack =>
      cases hstep
      have hdepth := h.depth
      have hsaved := h.saved
      rw [hstack] at hdepth hsaved
      refine ⟨h.wf, hdepth, fun q n hm => ?_, hsaved.2.2, h.startWf, h.start, h.registered⟩
      refine (h.covered q n hm).imp_right fun ho => ho.mono id fun u hu => ?_
      rw [hstack] at hu
      rcases mem_cons.mp hu with heq | hu
      · cases heq
      · exact hu
    · cases hstep
  | raise =>
    cases hstep
    exact .unwind h.saved h.startWf h.start h.registered hok (.inl h.depth)
  | endUtility resolved fails =>
    simp only [Rerecord.step] at hstep
    split at hstep
    · next u rest hstack =>
      cases hstep
      exact h.drain hstack (hok u rest hstack)
    · cases hstep
  | raiseInDrain =>
    simp only [Rerecord.step] at hstep
    split at hstep
    · next u rest hstack =>
      cases hstep
      have hsaved := h.saved
      have hcaught := hok.2
      rw [hstack] at hsaved hcaught
      refine .unwind hsaved h.startWf h.start h.registered ?_ (.inr ⟨hok.1, hcaught⟩)
      intro saved recorded hc
      rw [show caughtBy rest = none from hcaught] at hc
      cases hc
    · cases hstep
  | commit =>
    simp only [Rerecord.step] at hstep
    split at hstep
    · cases hstep
      have hnil : s.stack = [] := hok
      have hcov : ∀ l, Covered I s.db s.warnings l ([] : List (Frame ν)) := by
        intro l
        refine h.covered.of_nil (fun u hu => ?_) l []
        rw [hnil] at hu
        cases hu
      have hdepth := h.depth
      unfold Session.xactEnd
      split
      · refine ⟨h.wf, ?_, ?_, h.saved, h.wf, hcov [], fun _ => rfl⟩
        · show (0 : ℤ) = utilities s.stack
          rw [hnil]
          rfl
        · show Covered I s.db s.warnings [] s.stack
          rw [hnil]
          exact hcov []
      · exact ⟨h.wf, hdepth, h.covered, h.saved, h.wf, hcov [], h.registered⟩
    · cases hstep

/-! ## The outermost statement -/

/-- What is on the list is recorded again, so the list is empty after a statement that records. -/
theorem rewritten_drain [DecidableEq ν] {u : Utility}
    (hd : u.drains = true) : (s.drain I u resolved fails).rewritten = [] := by
  unfold Session.drain
  rw [if_pos hd]
  refine filter_eq_nil_iff.mpr fun r hr => ?_
  rw [decide_eq_true_iff, not_not]
  unfold Session.targets
  split
  · exact mem_append_left _ hr
  · exact hr

theorem inv_of_run [DecidableEq ν] {as : List (Action ν)}
    (hok : Run.AllSteps (step I) (Regular I) Session.init as)
    (hrun : Run.run (step I) Session.init as = some s) : Inv I s :=
  Run.run_invariant_of (fun _ _ _ h hok hstep => h.step hok hstep) .init hok hrun

/-- Relations without inheritors. -/
def Inheritance.alone : Inheritance := ⟨fun r => [r], fun r => mem_singleton_self r⟩

/-- A table with a projection is truncated. -/
def truncated : List (Action Unit) :=
  [.createTable 1, .addProjection 1 (), .beginUtility .truncate, .truncateStorage 1]

end PgColumnar.Rerecord
