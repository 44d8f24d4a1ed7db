import PgColumnar.Lib.Bitmap
import PgColumnar.Lib.Run
import Mathlib.Logic.Function.Basic

/-!
# Concurrent deletes in one row group

Transactions that delete rows of the same row group flush their marks into one row of
`pgcolumnar.delete_vector`.  A flush takes the locks of the rows it deletes, bucket by
bucket in ascending order (`PgColumnarSerializeFlushRows`), re-reads the committed
marks and gives up when one of its rows is among them, takes the chunk-group lock,
checks that the row group still exists, and reads, merges and writes the delete vector
(`PgColumnarUpsertDeleteVector`).  All locks are held to the end of the transaction.

Each of these is a step of its own, and the steps of any number of transactions
interleave freely.  A rewrite takes the same chunk-group lock and removes the group.

## Main definitions

* `Txn`, `State`, `step` — transactions that flush into one group, statement by statement.
* `TxnOk`, `SharedOk`, `Inv` — what each knows of the version it is about to replace.

## Main results

* `stored_union` — no delete is lost and none is doubled.
-/

namespace PgColumnar.Delete.Serialize

open Bytes List Function

/-- A row of `pgcolumnar.delete_vector`. -/
structure StoredVector where
  bitmap : List Byte
  deletedCount : ℕ
  deriving DecidableEq

/-- Where a transaction is in its flush. -/
inductive Phase where
  | idle
  | lockRows (buckets : List ℕ)
  | lockChunk
  | checkGroup
  | merge
  | write (v : StoredVector)
  | committed
  | aborted
  deriving DecidableEq

/-- A transaction: the marks not flushed yet, the version of the delete vector it has
written, and whether it removes the row group.  `marked` and `flushed` record which
rows it has marked, and which of them it has written. -/
structure Txn where
  phase : Phase
  chunk : Option (List Byte)
  pending : Option StoredVector
  retires : Bool
  marked : List ℕ
  flushed : List ℕ

def Txn.start : Txn := ⟨.idle, none, none, false, [], []⟩

/-- What the transactions share: the two kinds of locks, the committed delete vector,
and whether the row group is there. -/
structure Shared where
  rowLock : ℕ → Option ℕ
  chunkLock : Option ℕ
  stored : Option StoredVector
  present : Bool

structure State where
  txns : ℕ → Txn
  shared : Shared

/-- The row group: its row count, the lock bucket of each of its rows, and the delete
vector stored at the start, whose count is right. -/
structure Setting where
  rowCount : ℕ
  bucket : ℕ → ℕ
  base : Option StoredVector
  counted : ∀ v ∈ base, v.deletedCount = popcount v.bitmap

namespace Setting

def maskLen (g : Setting) : ℕ := (g.rowCount + 7) / 8

end Setting

/-- A bit of a delete vector that may not be there. -/
def bit (v : Option StoredVector) (i : ℕ) : Bool :=
  match v with
  | none => false
  | some v => bitAt v.bitmap i

/-- What `PgColumnarUpsertDeleteVector` writes over an existing row, or without one. -/
def mergeVector (existing : Option StoredVector) (mask : List Byte) : StoredVector :=
  match existing with
  | none => ⟨mask, popcount mask⟩
  | some v => ⟨orBytes mask v.bitmap, popcount (orBytes mask v.bitmap)⟩

/-- The delete vector a transaction sees: its own version, else the committed one. -/
def Txn.visible (x : Txn) (stored : Option StoredVector) : Option StoredVector :=
  match x.pending with
  | some v => some v
  | none => stored

/-- A row to be flushed is deleted in the state the transaction reads.  A group that is
not there is no conflict. -/
def conflict (g : Setting) (sh : Shared) (x : Txn) (mask : List Byte) : Bool :=
  sh.present && !x.retires &&
    (List.range g.rowCount).any fun i => bitAt mask i && bit (x.visible sh.stored) i

/-- The buckets of the rows to be flushed in ascending order, with those of the rows
the same flush deletes in other groups. -/
def lockBuckets (g : Setting) (others : List ℕ) (mask : List Byte) : List ℕ :=
  (((List.range g.rowCount).filter fun i => bitAt mask i).map g.bucket ++ others).mergeSort

/-- All locks of a transaction are released at its end. -/
def Shared.release (sh : Shared) (t : ℕ) : Shared :=
  { sh with
    rowLock := fun b => if sh.rowLock b = some t then none else sh.rowLock b
    chunkLock := if sh.chunkLock = some t then none else sh.chunkLock }

/-- Set the record of one transaction. -/
def State.set (s : State) (t : ℕ) (x : Txn) : State :=
  { s with txns := Function.update s.txns t x }

/-- The end of a transaction that does not commit. -/
def State.abort (s : State) (t : ℕ) : State :=
  { txns := Function.update s.txns t
      { s.txns t with phase := .aborted, chunk := none, pending := none }
    shared := s.shared.release t }

/-- What commit leaves for others: the version written, or no group at all. -/
def Shared.commit (sh : Shared) (x : Txn) : Shared :=
  if x.retires then { sh with stored := none, present := false }
  else { sh with stored := x.visible sh.stored }

inductive Action where
  | mark (t i : ℕ)
  | beginFlush (t : ℕ) (others : List ℕ)
  | lockRow (t : ℕ)
  | checkRows (t : ℕ)
  | lockChunk (t : ℕ)
  | checkGroup (t : ℕ)
  | merge (t : ℕ)
  | write (t : ℕ)
  | lockForRewrite (t : ℕ)
  | retire (t : ℕ)
  | commit (t : ℕ)
  | abort (t : ℕ)

/-- One step of one transaction.  A lock another transaction holds is waited for, so
the step is refused. -/
def step (g : Setting) (s : State) : Action → Option State
  | .mark t i =>
    let x := s.txns t
    match x.phase with
    | .idle =>
      if i < g.rowCount then
        some (s.set t { x with
          chunk := some (setBit (x.chunk.getD (zeros g.maskLen)) i), marked := i :: x.marked })
      else none
    | _ => none
  | .beginFlush t others =>
    let x := s.txns t
    match x.phase, x.chunk with
    | .idle, some mask => some (s.set t { x with phase := .lockRows (lockBuckets g others mask) })
    | _, _ => none
  | .lockRow t =>
    let x := s.txns t
    match x.phase with
    | .lockRows (b :: bs) =>
      if s.shared.rowLock b = none ∨ s.shared.rowLock b = some t then
        some
          { txns := Function.update s.txns t { x with phase := .lockRows bs }
            shared := { s.shared with rowLock := Function.update s.shared.rowLock b (some t) } }
      else none
    | _ => none
  | .checkRows t =>
    let x := s.txns t
    match x.phase, x.chunk with
    | .lockRows [], some mask =>
      if conflict g s.shared x mask then some (s.abort t)
      else some (s.set t { x with phase := .lockChunk })
    | _, _ => none
  | .lockChunk t =>
    let x := s.txns t
    match x.phase with
    | .lockChunk =>
      if s.shared.chunkLock = none ∨ s.shared.chunkLock = some t then
        some
          { txns := Function.update s.txns t { x with phase := .checkGroup }
            shared := { s.shared with chunkLock := some t } }
      else none
    | _ => none
  | .checkGroup t =>
    let x := s.txns t
    match x.phase with
    | .checkGroup =>
      -- "row group was compacted concurrently"
      if s.shared.present && !x.retires then some (s.set t { x with phase := .merge })
      else some (s.abort t)
    | _ => none
  | .merge t =>
    let x := s.txns t
    match x.phase, x.chunk with
    | .merge, some mask =>
      some (s.set t { x with phase := .write (mergeVector (x.visible s.shared.stored) mask) })
    | _, _ => none
  | .write t =>
    let x := s.txns t
    match x.phase with
    | .write v =>
      some (s.set t { x with phase := .idle, chunk := none, pending := some v, flushed :=
        x.marked })
    | _ => none
  | .lockForRewrite t =>
    match (s.txns t).phase with
    | .idle =>
      if s.shared.chunkLock = none ∨ s.shared.chunkLock = some t then
        some { s with shared := { s.shared with chunkLock := some t } }
      else none
    | _ => none
  | .retire t =>
    let x := s.txns t
    match x.phase with
    | .idle => if s.shared.chunkLock = some t then some (s.set t { x with retires := true })
      else none
    | _ => none
  | .commit t =>
    let x := s.txns t
    match x.phase, x.chunk with
    | .idle, none =>
      some
        { txns := Function.update s.txns t { x with phase := .committed, pending := none }
          shared := (s.shared.commit x).release t }
    | _, _ => none
  | .abort t =>
    match (s.txns t).phase with
    | .committed => none
    | .aborted => none
    | _ => some (s.abort t)

/-- No transaction has started. -/
def start (g : Setting) : State where
  txns := fun _ => Txn.start
  shared := ⟨fun _ => none, none, g.base, true⟩

/-! ### The invariant -/

/-- The transaction has not ended. -/
def Phase.live : Phase → Bool
  | .committed => false
  | .aborted => false
  | _ => true

/-- The rows about to be written are locked, and if the group can still be written they
are neither committed as deleted nor written before. -/
def Checked (g : Setting) (sh : Shared) (t : ℕ) (x : Txn) : Prop :=
  ∀ mask ∈ x.chunk, ∀ i, bitAt mask i = true → sh.rowLock (g.bucket i) = some t ∧
    (sh.present = true → x.retires = false → bit sh.stored i = false ∧ i ∉ x.flushed)

/-- What a transaction has secured at each point of its flush. -/
def PhaseOk (g : Setting) (sh : Shared) (t : ℕ) (x : Txn) : Prop :=
  match x.phase with
  | .lockRows bs => ∀ mask ∈ x.chunk, ∀ i, bitAt mask i = true →
      g.bucket i ∈ bs ∨ sh.rowLock (g.bucket i) = some t
  | .lockChunk => Checked g sh t x
  | .checkGroup => Checked g sh t x ∧ sh.chunkLock = some t
  | .merge => Checked g sh t x ∧ sh.chunkLock = some t ∧ sh.present = true ∧ x.retires = false
  | .write v => Checked g sh t x ∧ sh.chunkLock = some t ∧ sh.present = true ∧
      x.retires = false ∧ ∃ mask ∈ x.chunk, v = mergeVector (x.visible sh.stored) mask
  | _ => True

/-- The version a transaction has written: the committed bits and its own. -/
def PendingOk (g : Setting) (sh : Shared) (t : ℕ) (x : Txn) : Prop :=
  match x.pending with
  | none => x.flushed = []
  | some v => sh.chunkLock = some t ∧ sh.present = true ∧ v.deletedCount = popcount v.bitmap ∧
      ∀ i < g.rowCount, (bitAt v.bitmap i = true ↔ bit sh.stored i = true ∨ i ∈ x.flushed)

structure TxnOk (g : Setting) (sh : Shared) (t : ℕ) (x : Txn) : Prop where
  chunk_len : ∀ mask ∈ x.chunk, mask.length = g.maskLen
  chunk_marked : ∀ mask ∈ x.chunk, ∀ i, bitAt mask i = true → i ∈ x.marked
  marked_lt : ∀ i ∈ x.marked, i < g.rowCount
  marked_cases : x.phase ≠ .aborted → ∀ i ∈ x.marked,
    i ∈ x.flushed ∨ ∃ mask ∈ x.chunk, bitAt mask i = true
  flushed_marked : ∀ i ∈ x.flushed, i ∈ x.marked
  flushed_held : x.phase.live = true → ∀ i ∈ x.flushed,
    sh.rowLock (g.bucket i) = some t ∧ bit sh.stored i = false
  retires : x.phase.live = true → x.retires = true → sh.chunkLock = some t
  pending : x.phase.live = true → PendingOk g sh t x
  phase : PhaseOk g sh t x

/-- Row `i` was marked by a transaction that committed. -/
def CommittedMark (s : State) (t i : ℕ) : Prop := (s.txns t).phase = .committed ∧
    i ∈ (s.txns t).marked

structure SharedOk (g : Setting) (s : State) : Prop where
  row_live : ∀ b t, s.shared.rowLock b = some t → (s.txns t).phase.live = true
  chunk_live : ∀ t, s.shared.chunkLock = some t → (s.txns t).phase.live = true
  counted : ∀ v ∈ s.shared.stored, v.deletedCount = popcount v.bitmap
  union : s.shared.present = true → ∀ i < g.rowCount,
    (bit s.shared.stored i = true ↔ bit g.base i = true ∨ ∃ t, CommittedMark s t i)
  disjoint : ∀ t u i, CommittedMark s t i → CommittedMark s u i → t = u

structure Inv (g : Setting) (s : State) : Prop where
  txn : ∀ t, TxnOk g s.shared t (s.txns t)
  shared : SharedOk g s

/-! ### Steps of other transactions -/

/-- What a step of another transaction may do to the shared state: take away none of
our locks, delete none of the rows we have locked, and nothing at all to the delete
vector while we hold the chunk-group lock. -/
structure Frame (g : Setting) (t : ℕ) (sh sh' : Shared) : Prop where
  row : ∀ b, sh.rowLock b = some t → sh'.rowLock b = some t
  chunk : sh.chunkLock = some t → sh'.chunkLock = some t ∧ sh'.stored = sh.stored ∧
    sh'.present = sh.present
  present : sh'.present = true → sh.present = true
  stored : ∀ i < g.rowCount, sh.rowLock (g.bucket i) = some t → bit sh.stored i = false →
    bit sh'.stored i = false

variable {g : Setting} {s : State} {sh sh' : Shared} {t u : ℕ} {x : Txn}

theorem Checked.frame (h : Checked g sh t x) (hf : Frame g t sh sh')
    (hlt : ∀ mask ∈ x.chunk, ∀ i, bitAt mask i = true → i < g.rowCount) : Checked g sh' t x := by
  intro mask hm i hi
  obtain ⟨hlock, hfree⟩ := h mask hm i hi
  refine ⟨hf.row _ hlock, ?_⟩
  intro hp hr
  obtain ⟨h1, h2⟩ := hfree (hf.present hp) hr
  exact ⟨hf.stored i (hlt mask hm i hi) hlock h1, h2⟩

theorem PhaseOk.frame (h : PhaseOk g sh t x) (hf : Frame g t sh sh')
    (hlt : ∀ mask ∈ x.chunk, ∀ i, bitAt mask i = true → i < g.rowCount) : PhaseOk g sh' t x := by
  unfold PhaseOk at h ⊢
  cases hp : x.phase with
  | lockRows bs =>
    rw [hp] at h
    intro mask hm i hi
    exact (h mask hm i hi).imp id (hf.row _)
  | lockChunk =>
    rw [hp] at h
    exact Checked.frame h hf hlt
  | checkGroup =>
    rw [hp] at h
    exact ⟨h.1.frame hf hlt, (hf.chunk h.2).1⟩
  | merge =>
    rw [hp] at h
    obtain ⟨hc, -, hpres⟩ := hf.chunk h.2.1
    exact ⟨h.1.frame hf hlt, hc, hpres.trans h.2.2.1, h.2.2.2⟩
  | write v =>
    rw [hp] at h
    obtain ⟨hchk, hlock, hpr, hret, hv⟩ := h
    obtain ⟨hc, hst, hpres⟩ := hf.chunk hlock
    refine ⟨hchk.frame hf hlt, hc, hpres.trans hpr, hret, ?_⟩
    rw [hst]
    exact hv
  | idle | committed | aborted => trivial

theorem PendingOk.frame (h : PendingOk g sh t x) (hf : Frame g t sh sh') : PendingOk g sh' t x := by
  unfold PendingOk at h ⊢
  cases hp : x.pending with
  | none =>
    rw [hp] at h
    exact h
  | some v =>
    rw [hp] at h
    obtain ⟨hlock, hpr, hcount, hbits⟩ := h
    obtain ⟨hc, hst, hpres⟩ := hf.chunk hlock
    refine ⟨hc, hpres.trans hpr, hcount, ?_⟩
    rw [hst]
    exact hbits

theorem TxnOk.frame (h : TxnOk g sh t x) (hf : Frame g t sh sh') : TxnOk g sh' t x :=
  { h with
    flushed_held := by
      intro hl i hi
      obtain ⟨h1, h2⟩ := h.flushed_held hl i hi
      exact ⟨hf.row _ h1, hf.stored i (h.marked_lt i (h.flushed_marked i hi)) h1 h2⟩
    retires := fun hl hr => (hf.chunk (h.retires hl hr)).1
    pending := fun hl => (h.pending hl).frame hf
    phase := h.phase.frame hf fun mask hm i hi => h.marked_lt i (h.chunk_marked mask hm i hi) }

theorem Frame.refl (g : Setting) (t : ℕ) (sh : Shared) : Frame g t sh sh :=
  ⟨fun _ h => h, fun h => ⟨h, rfl, rfl⟩, fun h => h, fun _ _ _ h => h⟩

theorem Frame.release (g : Setting) (sh : Shared) (h : u ≠ t) : Frame g u sh (sh.release t) where
  row := by
    intro b hb
    simp [Shared.release, hb, h]
  chunk := by
    intro hc
    exact ⟨by simp [Shared.release, hc, h], rfl, rfl⟩
  present := fun hp => hp
  stored := fun _ _ _ hb => hb

variable {i : ℕ}

theorem committedMark_update {s : State} {sh : Shared} {x : Txn} {u : ℕ}
    (hold : (s.txns t).phase ≠ .committed) (hnew : x.phase ≠ .committed) :
    CommittedMark ⟨Function.update s.txns t x, sh⟩ u i ↔ CommittedMark s u i := by
  unfold CommittedMark
  by_cases hu : u = t
  · subst hu
    simp [hold, hnew]
  · simp [hu]

theorem ne_committed_of_live {p : Phase} (h : p.live = true) : p ≠ .committed := by
  rintro rfl
  cases h

theorem ne_aborted_of_live {p : Phase} (h : p.live = true) : p ≠ .aborted := by
  rintro rfl
  cases h

/-- A step of `t` that neither ends it nor touches the delete vector. -/
theorem Inv.update (h : Inv g s) (hlive : (s.txns t).phase.live = true)
    (hnew : x.phase.live = true) (ht : TxnOk g sh' t x)
    (hf : ∀ u ≠ t, Frame g u s.shared sh')
    (hrow : ∀ b u, sh'.rowLock b = some u → u = t ∨ s.shared.rowLock b = some u)
    (hchunk : ∀ u, sh'.chunkLock = some u → u = t ∨ s.shared.chunkLock = some u)
    (hst : sh'.stored = s.shared.stored) (hpr : sh'.present = s.shared.present) :
    Inv g ⟨Function.update s.txns t x, sh'⟩ where
  txn := by
    intro u
    by_cases hu : u = t
    · subst hu
      simpa using ht
    · simpa [hu] using (h.txn u).frame (hf u hu)
  shared := by
    have hmark : ∀ u i, CommittedMark ⟨Function.update s.txns t x, sh'⟩ u i ↔ CommittedMark s u i :=
      fun u i => committedMark_update (ne_committed_of_live hlive) (ne_committed_of_live hnew)
    have hl : ∀ u, u = t ∨ (s.txns u).phase.live = true →
        (Function.update s.txns t x u).phase.live = true := by
      intro u hu
      by_cases hut : u = t
      · subst hut
        simpa using hnew
      · simpa [hut] using hu.resolve_left hut
    refine ⟨?_, ?_, ?_, ?_, ?_⟩
    · intro b u hb
      exact hl u ((hrow b u hb).imp id (h.shared.row_live b u))
    · intro u hc
      exact hl u ((hchunk u hc).imp id (h.shared.chunk_live u))
    · intro v hv
      rw [hst] at hv
      exact h.shared.counted v hv
    · intro hp i hi
      rw [hpr] at hp
      simp only [hst, hmark]
      exact h.shared.union hp i hi
    · intro u v i hu hv
      rw [hmark] at hu hv
      exact h.shared.disjoint u v i hu hv

/-- A step of `t` on its own record only. -/
theorem Inv.set (h : Inv g s) (hlive : (s.txns t).phase.live = true)
    (hnew : x.phase.live = true) (ht : TxnOk g s.shared t x) : Inv g (s.set t x) :=
  h.update hlive hnew ht (fun u _ => Frame.refl g u s.shared) (fun _ _ h => Or.inr h)
    (fun _ h => Or.inr h) rfl rfl

theorem release_rowLock {b : ℕ} (hb : (sh.release t).rowLock b = some u) :
    u ≠ t ∧ sh.rowLock b = some u := by
  simp only [Shared.release] at hb
  split_ifs at hb with hne
  refine ⟨?_, hb⟩
  rintro rfl
  exact hne hb

theorem release_chunkLock (hb : (sh.release t).chunkLock = some u) :
    u ≠ t ∧ sh.chunkLock = some u := by
  simp only [Shared.release] at hb
  split_ifs at hb with hne
  refine ⟨?_, hb⟩
  rintro rfl
  exact hne hb

/-- An aborted transaction leaves nothing behind. -/
theorem Inv.abort (h : Inv g s) (hlive : (s.txns t).phase.live = true) : Inv g (s.abort t) where
  txn := by
    intro u
    by_cases hu : u = t
    · subst hu
      have hx := h.txn u
      have heq : (s.abort u).txns u =
          { s.txns u with phase := .aborted, chunk := none, pending := none } := by
        simp [State.abort]
      rw [heq]
      exact ⟨by simp, by simp, hx.marked_lt, by simp, hx.flushed_marked, by simp [Phase.live],
        by simp [Phase.live], by simp [Phase.live], trivial⟩
    · have heq : (s.abort t).txns u = s.txns u := by simp [State.abort, hu]
      rw [heq]
      exact (h.txn u).frame (Frame.release g s.shared hu)
  shared := by
    have hmark : ∀ u i, CommittedMark (s.abort t) u i ↔ CommittedMark s u i :=
      fun u i => committedMark_update (ne_committed_of_live hlive) (by simp)
    refine ⟨?_, ?_, h.shared.counted, ?_, ?_⟩
    · intro b u hb
      obtain ⟨hne, hb⟩ := release_rowLock hb
      simpa [State.abort, hne] using h.shared.row_live b u hb
    · intro u hc
      obtain ⟨hne, hc⟩ := release_chunkLock hc
      simpa [State.abort, hne] using h.shared.chunk_live u hc
    · intro hp i hi
      simp only [hmark]
      exact h.shared.union hp i hi
    · intro u v i hu hv
      rw [hmark] at hu hv
      exact h.shared.disjoint u v i hu hv

/-! ### Commit -/

theorem Frame.trans {sh₁ sh₂ : Shared} (h₁ : Frame g t sh sh₁) (h₂ : Frame g t sh₁ sh₂) :
    Frame g t sh sh₂ where
  row := fun b hb => h₂.row b (h₁.row b hb)
  chunk := by
    intro hc
    obtain ⟨a1, a2, a3⟩ := h₁.chunk hc
    obtain ⟨b1, b2, b3⟩ := h₂.chunk a1
    exact ⟨b1, b2.trans a2, b3.trans a3⟩
  present := fun hp => h₁.present (h₂.present hp)
  stored := fun i hi hr hb => h₂.stored i hi (h₁.row _ hr) (h₁.stored i hi hr hb)

/-- The delete vector a committing transaction leaves, bit by bit. -/
theorem bit_visible (hx : PendingOk g sh t x) (hi : i < g.rowCount) :
    bit (x.visible sh.stored) i = true ↔ bit sh.stored i = true ∨ i ∈ x.flushed := by
  unfold PendingOk at hx
  unfold Txn.visible
  cases hp : x.pending with
  | none =>
    rw [hp] at hx
    simp [show x.flushed = [] from hx]
  | some v =>
    rw [hp] at hx
    exact hx.2.2.2 i hi

theorem Frame.commit (hx : TxnOk g sh t x) (hlive : x.phase.live = true) (hu : u ≠ t) :
    Frame g u sh (sh.commit x) := by
  have hpend := hx.pending hlive
  have hchunk : sh.chunkLock = some u → x.retires = false ∧ x.pending = none := by
    intro hc
    refine ⟨?_, ?_⟩
    · by_contra hr
      have ht := hx.retires hlive (by simpa using hr)
      rw [hc] at ht
      exact hu (Option.some.inj ht)
    · cases hp : x.pending with
      | none => rfl
      | some v =>
        unfold PendingOk at hpend
        rw [hp] at hpend
        have ht := hpend.1
        rw [hc] at ht
        exact absurd (Option.some.inj ht) hu
  unfold Shared.commit
  split
  · next hr =>
    refine ⟨fun _ h => h, fun hc => ?_, by simp, by simp [bit]⟩
    rw [(hchunk hc).1] at hr
    cases hr
  · refine ⟨fun _ h => h, fun hc => ⟨hc, ?_, rfl⟩, fun h => h, ?_⟩
    · simp [Txn.visible, (hchunk hc).2]
    · intro i hi hrow hb
      -- a row we have locked is not among those the committing transaction wrote
      have hno : i ∉ x.flushed := by
        intro hm
        have ht := (hx.flushed_held hlive i hm).1
        rw [hrow] at ht
        exact hu (Option.some.inj ht)
      rw [Bool.eq_false_iff, Ne, bit_visible hpend hi]
      simp [hb, hno]

theorem Inv.commit (h : Inv g s) (hidle : (s.txns t).phase = .idle)
    (hchunk : (s.txns t).chunk = none) :
    Inv g ⟨Function.update s.txns t { s.txns t with phase := .committed, pending := none },
      (s.shared.commit (s.txns t)).release t⟩ := by
  have hx := h.txn t
  have hlive : (s.txns t).phase.live = true := by rw [hidle]; rfl
  have hpend := hx.pending hlive
  have hflushed : ∀ i, i ∈ (s.txns t).marked ↔ i ∈ (s.txns t).flushed := by
    intro i
    refine ⟨fun hi => ?_, hx.flushed_marked i⟩
    refine (hx.marked_cases (ne_aborted_of_live hlive) i hi).resolve_right ?_
    simp [hchunk]
  have hmark : ∀ u i, CommittedMark ⟨Function.update s.txns t
      { s.txns t with phase := .committed, pending := none },
      (s.shared.commit (s.txns t)).release t⟩ u i ↔
      CommittedMark s u i ∨ u = t ∧ i ∈ (s.txns t).flushed := by
    intro u i
    unfold CommittedMark
    by_cases hu : u = t
    · subst hu
      simp [hidle, hflushed]
    · simp [hu]
  -- what it wrote was not deleted by any transaction that committed before
  have hfresh : ∀ i ∈ (s.txns t).flushed, ∀ u, ¬ CommittedMark s u i := by
    intro i hi u hu
    have hpres : s.shared.present = true := by
      unfold PendingOk at hpend
      cases hp : (s.txns t).pending with
      | none =>
        rw [hp] at hpend
        rw [show (s.txns t).flushed = [] from hpend] at hi
        cases hi
      | some v =>
        rw [hp] at hpend
        exact hpend.2.1
    have hlt := hx.marked_lt i (hx.flushed_marked i hi)
    have hbit := (h.shared.union hpres i hlt).mpr (Or.inr ⟨u, hu⟩)
    rw [(hx.flushed_held hlive i hi).2] at hbit
    cases hbit
  refine ⟨?_, ⟨?_, ?_, ?_, ?_, ?_⟩⟩
  · intro u
    by_cases hu : u = t
    · subst hu
      simp only [update_self]
      exact ⟨hx.chunk_len, hx.chunk_marked, hx.marked_lt,
        fun _ => hx.marked_cases (ne_aborted_of_live hlive), hx.flushed_marked,
        by simp [Phase.live], by simp [Phase.live], by simp [Phase.live], trivial⟩
    · simp only [ne_eq, hu, not_false_eq_true, update_of_ne]
      exact (h.txn u).frame ((Frame.commit hx hlive hu).trans (Frame.release g _ hu))
  · intro b u hb
    obtain ⟨hne, hb⟩ := release_rowLock hb
    have hb' : s.shared.rowLock b = some u := by
      unfold Shared.commit at hb
      split at hb <;> exact hb
    simpa [hne] using h.shared.row_live b u hb'
  · intro u hc
    obtain ⟨hne, hc⟩ := release_chunkLock hc
    have hc' : s.shared.chunkLock = some u := by
      unfold Shared.commit at hc
      split at hc <;> exact hc
    simpa [hne] using h.shared.chunk_live u hc'
  · intro v hv
    simp only [Shared.release, Shared.commit] at hv
    split at hv
    · cases hv
    · unfold Txn.visible at hv
      unfold PendingOk at hpend
      cases hp : (s.txns t).pending with
      | none =>
        rw [hp] at hv
        exact h.shared.counted v hv
      | some w =>
        rw [hp] at hv hpend
        cases hv
        exact hpend.2.2.1
  · intro hp i hi
    simp only [hmark]
    simp only [Shared.release, Shared.commit] at hp ⊢
    split_ifs at hp with hr
    rw [if_neg hr, bit_visible hpend hi, h.shared.union hp i hi]
    simp only [exists_or, exists_eq_left, or_assoc]
  · intro u v i hu hv
    rw [hmark] at hu hv
    rcases hu with hu | ⟨rfl, hu⟩
    · rcases hv with hv | ⟨rfl, hv⟩
      · exact h.shared.disjoint u v i hu hv
      · exact absurd hu (hfresh i hv u)
    · rcases hv with hv | ⟨rfl, hv⟩
      · exact absurd hv (hfresh i hu v)
      · rfl

/-! ### The steps of a flush -/

theorem Setting.lt_maskLen (h : i < g.rowCount) : i < 8 * g.maskLen := by
  unfold Setting.maskLen
  omega

theorem TxnOk.mark (hx : TxnOk g sh t x) (hidle : x.phase = .idle) (hi : i < g.rowCount) :
    TxnOk g sh t { x with
      chunk := some (setBit (x.chunk.getD (zeros g.maskLen)) i), marked := i :: x.marked } := by
  have hlen : (x.chunk.getD (zeros g.maskLen)).length = g.maskLen := by
    cases hc : x.chunk with
    | none => simp
    | some mask => exact hx.chunk_len mask hc
  have hbit : ∀ k, bitAt (setBit (x.chunk.getD (zeros g.maskLen)) i) k = true ↔
      (∃ mask ∈ x.chunk, bitAt mask k = true) ∨ k = i := by
    intro k
    rw [bitAt_setBit (by rw [hlen]; exact Setting.lt_maskLen hi), Bool.or_eq_true,
      decide_eq_true_eq]
    cases x.chunk <;> simp
  refine ⟨?_, ?_, ?_, ?_, ?_, hx.flushed_held, hx.retires, hx.pending, ?_⟩
  · intro mask hm
    cases hm
    simpa using hlen
  · intro mask hm k hk
    cases hm
    rcases (hbit k).mp hk with ⟨mask, hm, hk⟩ | rfl
    · exact mem_cons_of_mem _ (hx.chunk_marked mask hm k hk)
    · exact mem_cons_self
  · refine forall_mem_cons.mpr ⟨?_, hx.marked_lt⟩
    exact hi
  · intro hne k hk
    rcases mem_cons.mp hk with rfl | hk
    · exact Or.inr ⟨_, rfl, (hbit k).mpr (Or.inr rfl)⟩
    · rcases hx.marked_cases hne k hk with hf | hm
      · exact Or.inl hf
      · exact Or.inr ⟨_, rfl, (hbit k).mpr (Or.inl hm)⟩
  · intro k hk
    exact mem_cons_of_mem _ (hx.flushed_marked k hk)
  · simp [PhaseOk, hidle]

/-- A live transaction moves to another phase, keeping everything else. -/
theorem TxnOk.setPhase {p : Phase} (hx : TxnOk g sh t x) (hlive : x.phase.live = true)
    (hok : PhaseOk g sh t { x with phase := p }) :
    TxnOk g sh t { x with phase := p } :=
  { hx with
    marked_cases := fun _ => hx.marked_cases (ne_aborted_of_live hlive)
    flushed_held := fun _ => hx.flushed_held hlive
    retires := fun _ => hx.retires hlive
    pending := fun _ => hx.pending hlive
    phase := hok }

variable {mask : List Byte}

/-- Every row to be flushed has its bucket among those to be locked. -/
theorem mem_lockBuckets {others : List ℕ} (hi : i < g.rowCount)
    (hb : bitAt mask i = true) : g.bucket i ∈ lockBuckets g others mask := by
  unfold lockBuckets
  rw [mem_mergeSort, mem_append]
  exact Or.inl (mem_map_of_mem (mem_filter.mpr ⟨mem_range.mpr hi, hb⟩))

/-- With its rows locked and no conflict found, a transaction may go on. -/
theorem checked_of_not_conflict (hx : TxnOk g sh t x) (hphase : x.phase = .lockRows [])
    (hc : x.chunk = some mask) (hno : conflict g sh x mask = false) :
    Checked g sh t x := by
  have hlive : x.phase.live = true := by rw [hphase]; rfl
  intro mask' hm i hi
  rw [hc] at hm
  cases hm
  have hlt := hx.marked_lt i (hx.chunk_marked mask hc i hi)
  have hlock : sh.rowLock (g.bucket i) = some t := by
    have hp := hx.phase
    unfold PhaseOk at hp
    rw [hphase] at hp
    exact (hp mask hc i hi).resolve_left (by simp)
  refine ⟨hlock, ?_⟩
  intro hpres hret
  have hvis : bit (x.visible sh.stored) i ≠ true := by
    intro hv
    have hyes : conflict g sh x mask = true := by
      unfold conflict
      rw [hpres, hret]
      simp only [Bool.not_false, Bool.and_true, Bool.true_and]
      exact any_eq_true.mpr ⟨i, mem_range.mpr hlt, by simp [hi, hv]⟩
    rw [hno] at hyes
    cases hyes
  rw [Ne, bit_visible (hx.pending hlive) hlt, not_or] at hvis
  exact ⟨by simpa using hvis.1, hvis.2⟩

theorem bit_mergeVector {existing : Option StoredVector} (hi : i < 8 * mask.length) :
    bitAt (mergeVector existing mask).bitmap i = true ↔
      bit existing i = true ∨ bitAt mask i = true := by
  cases existing with
  | none => simp [mergeVector, bit]
  | some v =>
    simp only [mergeVector, bit]
    rw [bitAt_orBytes hi, Bool.or_eq_true, or_comm]

theorem counted_mergeVector (existing : Option StoredVector) (mask : List Byte) :
    (mergeVector existing mask).deletedCount = popcount (mergeVector existing mask).bitmap := by
  cases existing <;> rfl

/-- The new version of the delete vector is in place and the buffer empty. -/
theorem TxnOk.write (hx : TxnOk g sh t x) {v : StoredVector} (hphase : x.phase = .write v) :
    TxnOk g sh t { x with
      phase := .idle, chunk := none, pending := some v, flushed := x.marked } := by
  have hlive : x.phase.live = true := by rw [hphase]; rfl
  have hp := hx.phase
  unfold PhaseOk at hp
  rw [hphase] at hp
  obtain ⟨hchk, hlock, hpres, hret, mask, hc, rfl⟩ := hp
  have hcases := hx.marked_cases (ne_aborted_of_live hlive)
  refine ⟨by simp, by simp, hx.marked_lt, fun _ i hi => Or.inl hi, fun _ hi => hi, ?_,
    fun _ => hx.retires hlive, fun _ => ?_, trivial⟩
  · intro _ i hi
    rcases hcases i hi with hf | ⟨mask', hm, hb⟩
    · exact hx.flushed_held hlive i hf
    · obtain ⟨h1, h2⟩ := hchk mask' hm i hb
      exact ⟨h1, (h2 hpres hret).1⟩
  · refine ⟨hlock, hpres, counted_mergeVector _ _, ?_⟩
    intro i hi
    rw [bit_mergeVector (by rw [hx.chunk_len mask hc]; exact Setting.lt_maskLen hi),
      bit_visible (hx.pending hlive) hi, or_assoc]
    refine or_congr_right ⟨?_, ?_⟩
    · rintro (hf | hb)
      · exact hx.flushed_marked i hf
      · exact hx.chunk_marked mask hc i hb
    · intro hm
      rcases hcases i hm with hf | ⟨mask', hm', hb⟩
      · exact Or.inl hf
      · rw [show x.chunk = some mask from hc] at hm'
        cases hm'
        exact Or.inr hb

/-! ### Runs -/

/-- Taking the chunk-group lock when it is free or one's own. -/
theorem Frame.lockChunk (hfree : sh.chunkLock = none ∨ sh.chunkLock = some t) (hu : u ≠ t) :
    Frame g u sh { sh with chunkLock := some t } := by
  refine ⟨fun _ h => h, fun hc => ?_, fun h => h, fun _ _ _ h => h⟩
  rw [hc] at hfree
  rcases hfree with hfree | hfree
  · cases hfree
  · exact absurd (Option.some.inj hfree) hu

/-- Taking a row lock when it is free or one's own. -/
theorem Frame.lockRow {b : ℕ} (hfree : sh.rowLock b = none ∨ sh.rowLock b = some t) (hu : u ≠ t) :
    Frame g u sh { sh with rowLock := Function.update sh.rowLock b (some t) } := by
  refine ⟨fun c hc => ?_, fun hc => ⟨hc, rfl, rfl⟩, fun h => h, fun _ _ _ h => h⟩
  by_cases hcb : c = b
  · subst hcb
    rw [hc] at hfree
    rcases hfree with hfree | hfree
    · cases hfree
    · exact absurd (Option.some.inj hfree) hu
  · simpa [hcb] using hc

theorem Frame.gainChunk : Frame g t sh { sh with chunkLock := some t } :=
  ⟨fun _ h => h, fun _ => ⟨rfl, rfl, rfl⟩, fun h => h, fun _ _ _ h => h⟩

theorem Frame.gainRow (b : ℕ) :
    Frame g t sh { sh with rowLock := Function.update sh.rowLock b (some t) } := by
  refine ⟨fun c hc => ?_, fun hc => ⟨hc, rfl, rfl⟩, fun h => h, fun _ _ _ h => h⟩
  by_cases hcb : c = b
  · simp [hcb]
  · simpa [hcb] using hc

theorem Inv.lockChunk (h : Inv g s) (hlive : (s.txns t).phase.live = true)
    (hnew : x.phase.live = true)
    (hfree : s.shared.chunkLock = none ∨ s.shared.chunkLock = some t)
    (hx : TxnOk g { s.shared with chunkLock := some t } t x) :
    Inv g ⟨Function.update s.txns t x, { s.shared with chunkLock := some t }⟩ :=
  h.update hlive hnew hx (fun _ hu => Frame.lockChunk hfree hu) (fun _ _ hb => Or.inr hb)
    (fun _ hc => Or.inl (Option.some.inj hc).symm) rfl rfl

/-- Every step keeps the invariant. -/
theorem Inv.step {s' : State} (h : Inv g s) (a : Action) (hs : step g s a = some s') :
    Inv g s' := by
  cases a with
  | mark t i =>
    simp only [Serialize.step] at hs
    split at hs
    · next hidle =>
      obtain ⟨hi, hs⟩ := Option.ite_none_right_eq_some.mp hs
      cases hs
      have hlive : (s.txns t).phase.live = true := by rw [hidle]; rfl
      exact h.set hlive hlive ((h.txn t).mark hidle hi)
    · cases hs
  | beginFlush t others =>
    simp only [Serialize.step] at hs
    split at hs
    · next mask hidle hc =>
      cases hs
      have hlive : (s.txns t).phase.live = true := by rw [hidle]; rfl
      refine h.set hlive rfl ((h.txn t).setPhase hlive ?_)
      -- every row of the mask has its bucket in the list
      intro mask' hm i hi
      have hm' : (s.txns t).chunk = some mask' := hm
      rw [hc] at hm'
      cases hm'
      refine Or.inl (mem_lockBuckets ?_ hi)
      exact (h.txn t).marked_lt i ((h.txn t).chunk_marked mask hc i hi)
    · cases hs
  | lockRow t =>
    simp only [Serialize.step] at hs
    split at hs
    · next b bs hphase =>
      obtain ⟨hfree, hs⟩ := Option.ite_none_right_eq_some.mp hs
      cases hs
      have hlive : (s.txns t).phase.live = true := by rw [hphase]; rfl
      have hx := (h.txn t).frame (Frame.gainRow b)
      refine h.update hlive rfl (hx.setPhase hlive ?_) (fun _ hu => Frame.lockRow hfree hu) ?_
        (fun _ hc => Or.inr hc) rfl rfl
      · -- the bucket just locked leaves the list
        have hp := (h.txn t).phase
        unfold PhaseOk at hp
        rw [hphase] at hp
        intro mask hm i hi
        rcases hp mask hm i hi with hmem | hheld
        · rcases mem_cons.mp hmem with heq | hmem
          · exact Or.inr (by simp [heq])
          · exact Or.inl hmem
        · exact Or.inr ((Frame.gainRow b).row (g := g) _ hheld)
      · intro c u hc
        by_cases hcb : c = b
        · simp only [hcb, update_self] at hc
          exact Or.inl (Option.some.inj hc).symm
        · exact Or.inr (by simpa [hcb] using hc)
    · cases hs
  | checkRows t =>
    simp only [Serialize.step] at hs
    split at hs
    · next mask hphase hc =>
      have hlive : (s.txns t).phase.live = true := by rw [hphase]; rfl
      split at hs
      · cases hs
        exact h.abort hlive
      · next hno =>
        cases hs
        -- all row locks are held: no other transaction can take these marks any more
        have hchk := checked_of_not_conflict (h.txn t) hphase hc (by simpa using hno)
        exact h.set hlive rfl ((h.txn t).setPhase hlive hchk)
    · cases hs
  | lockChunk t =>
    simp only [Serialize.step] at hs
    split at hs
    · next hphase =>
      obtain ⟨hfree, hs⟩ := Option.ite_none_right_eq_some.mp hs
      cases hs
      have hlive : (s.txns t).phase.live = true := by rw [hphase]; rfl
      have hx := (h.txn t).frame Frame.gainChunk
      have hp := hx.phase
      unfold PhaseOk at hp
      rw [hphase] at hp
      exact h.lockChunk hlive rfl hfree (hx.setPhase hlive ⟨hp, rfl⟩)
    · cases hs
  | checkGroup t =>
    simp only [Serialize.step] at hs
    split at hs
    · next hphase =>
      have hlive : (s.txns t).phase.live = true := by rw [hphase]; rfl
      split at hs
      · next hok =>
        cases hs
        simp only [Bool.and_eq_true, Bool.not_eq_true'] at hok
        have hp := (h.txn t).phase
        unfold PhaseOk at hp
        rw [hphase] at hp
        exact h.set hlive rfl ((h.txn t).setPhase hlive ⟨hp.1, hp.2, hok.1, hok.2⟩)
      · cases hs
        exact h.abort hlive
    · cases hs
  | merge t =>
    simp only [Serialize.step] at hs
    split at hs
    · next mask hphase hc =>
      cases hs
      have hlive : (s.txns t).phase.live = true := by rw [hphase]; rfl
      have hp := (h.txn t).phase
      unfold PhaseOk at hp
      rw [hphase] at hp
      obtain ⟨hchk, hlock, hpres, hret⟩ := hp
      exact h.set hlive rfl ((h.txn t).setPhase hlive ⟨hchk, hlock, hpres, hret, mask, hc, rfl⟩)
    · cases hs
  | write t =>
    simp only [Serialize.step] at hs
    split at hs
    · next v hphase =>
      cases hs
      have hlive : (s.txns t).phase.live = true := by rw [hphase]; rfl
      exact h.set hlive rfl ((h.txn t).write hphase)
    · cases hs
  | lockForRewrite t =>
    simp only [Serialize.step] at hs
    split at hs
    · next hidle =>
      obtain ⟨hfree, hs⟩ := Option.ite_none_right_eq_some.mp hs
      cases hs
      have hlive : (s.txns t).phase.live = true := by rw [hidle]; rfl
      have hinv := h.lockChunk hlive hlive hfree ((h.txn t).frame Frame.gainChunk)
      rwa [update_eq_self] at hinv
    · cases hs
  | retire t =>
    simp only [Serialize.step] at hs
    split at hs
    · next hidle =>
      obtain ⟨hlock, hs⟩ := Option.ite_none_right_eq_some.mp hs
      cases hs
      have hlive : (s.txns t).phase.live = true := by rw [hidle]; rfl
      have hx := h.txn t
      exact h.set hlive hlive ⟨hx.chunk_len, hx.chunk_marked, hx.marked_lt, hx.marked_cases,
        hx.flushed_marked, hx.flushed_held, fun _ _ => hlock, hx.pending, by simp [PhaseOk, hidle]⟩
    · cases hs
  | commit t =>
    simp only [Serialize.step] at hs
    split at hs
    · next hidle hc =>
      cases hs
      exact h.commit hidle hc
    · cases hs
  | abort t =>
    simp only [Serialize.step] at hs
    split at hs
    · cases hs
    · cases hs
    · next h1 h2 =>
      cases hs
      refine h.abort ?_
      cases hp : (s.txns t).phase <;> simp_all [Phase.live]

theorem inv_start (g : Setting) : Inv g (start g) := by
  have hnone : ∀ u i, ¬ CommittedMark (start g) u i := by
    rintro u i ⟨hp, -⟩
    cases hp
  refine ⟨?_, ⟨?_, ?_, g.counted, ?_, ?_⟩⟩
  · intro t
    refine ⟨?_, ?_, ?_, ?_, ?_, ?_, ?_, fun _ => rfl, trivial⟩ <;> simp [start, Txn.start]
  · intro b t hb
    cases hb
  · intro t hc
    cases hc
  · intro _ i _
    refine (or_iff_left ?_).symm
    rintro ⟨u, hu⟩
    exact hnone u i hu
  · intro t u i ht
    exact absurd ht (hnone t i)

/-- **No delete is lost and none is doubled.**  After any steps of any transactions,
as long as the row group is there: the stored bitmap holds the rows stored at the start
and those marked by the transactions that committed, the stored count is the number of
its set bits, and no row was marked by two transactions that committed. -/
theorem stored_union (g : Setting) (as : List Action) (s : State)
    (hr : Run.run (step g) (start g) as = some s) :
    (s.shared.present = true → ∀ i < g.rowCount, (bit s.shared.stored i = true ↔
      bit g.base i = true ∨
        ∃ t, (s.txns t).phase = .committed ∧ i ∈ (s.txns t).marked)) ∧
    (∀ v ∈ s.shared.stored, v.deletedCount = popcount v.bitmap) ∧
    ∀ t u i, (s.txns t).phase = .committed → i ∈ (s.txns t).marked →
      (s.txns u).phase = .committed → i ∈ (s.txns u).marked → t = u := by
  have h : Inv g s := Run.run_invariant (fun _ a _ hi hs => Inv.step hi a hs) (inv_start g) hr
  refine ⟨h.shared.union, h.shared.counted, ?_⟩
  intro t u i ht hti hu hui
  exact h.shared.disjoint t u i ⟨ht, hti⟩ ⟨hu, hui⟩

/-- Three transactions on a group of ten rows with one lock bucket: the second waits for
the first, the third deletes a row the first deleted. -/
def raceRun : List Action :=
  [.mark 1 0, .mark 2 9, .mark 3 0, .beginFlush 1 [], .lockRow 1, .checkRows 1, .lockChunk 1,
    .checkGroup 1, .merge 1, .beginFlush 2 [], .write 1, .commit 1, .beginFlush 3 [], .lockRow 3,
    .checkRows 3, .lockRow 2, .checkRows 2, .lockChunk 2, .checkGroup 2, .merge 2, .write 2,
    .commit 2]

/-- The group of `raceRun`, with row 4 deleted before. -/
def raceGroup : Setting := ⟨10, fun _ => 0, some ⟨[0x10, 0x00], 1⟩, by decide⟩

theorem stored_union_race :
    ∃ s, Run.run (step raceGroup) (start raceGroup) raceRun = some s ∧
      (s.txns 1).phase = .committed ∧ (s.txns 2).phase = .committed ∧
      (s.txns 3).phase = .aborted ∧ bit s.shared.stored 0 = true ∧
        bit s.shared.stored 9 = true := by
  have hcase : (Run.run (step raceGroup) (start raceGroup) raceRun).map (fun s =>
      (s.shared.present, [1, 2, 3].map fun t => ((s.txns t).phase, (s.txns t).marked))) =
      some (true, [(.committed, [0]), (.committed, [9]), (.aborted, [0])]) := by decide +kernel
  obtain ⟨s, hr, heq⟩ := Option.map_eq_some_iff.mp hcase
  simp only [map_cons, map_nil, Prod.mk.injEq, List.cons.injEq, and_true] at heq
  obtain ⟨hp, ⟨h1, hm1⟩, ⟨h2, hm2⟩, h3, -⟩ := heq
  have hunion := (stored_union raceGroup raceRun s hr).1 hp
  exact ⟨s, hr, h1, h2, h3, (hunion 0 (by decide)).mpr (Or.inr ⟨1, h1, by simp [hm1]⟩),
    (hunion 9 (by decide)).mpr (Or.inr ⟨2, h2, by simp [hm2]⟩)⟩

end PgColumnar.Delete.Serialize
