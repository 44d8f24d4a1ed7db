import Mathlib.Data.List.Lex
import PgColumnar.Lib.Bitmap
import PgColumnar.Lib.LockOrder

/-!
# The order of the locks of a flush

A flush of delete marks takes a lock for each row it deletes, which rows share by buckets, and then
a lock for each row group.  Both are advisory locks, named by hashes: a bucket is the remainder of
one, and the key of a row group is a mix of 64 bits.

## Main definitions

* `flushTags` — the locks of one flush, in the order in which it takes them.

## Main results

* `deleteVectorChunkLockKey_injective` — the row groups of a storage have keys of their own.
* `flush_order` — flushes of one storage do not deadlock.
-/

namespace PgColumnar.Delete.FlushOrder

open Bytes LockOrder BitVec

/-- A 64-bit mix, as the last steps of both keys. -/
def finish (h : BitVec 64) : BitVec 64 :=
  let h := h ^^^ (h >>> 33)
  let h := h * 0xff51afd7ed558ccd
  let h := h ^^^ (h >>> 33)
  let h := h * 0xc4ceb9fe1a85ec53
  h ^^^ (h >>> 33)

/-- `delete_vector_chunk_lock_key` -/
def deleteVectorChunkLockKey (storageId stripeId : BitVec 64) (chunkId : BitVec 32) : BitVec 64 :=
  let h := 1469598103934665603#64
  let h := (h ^^^ storageId) * 1099511628211
  let h := (h ^^^ stripeId) * 1099511628211
  let h := (h ^^^ chunkId.setWidth 64) * 1099511628211
  finish h

/-- `row_identity_lock_key` -/
def rowIdentityLockKey (storageId rowNumber : BitVec 64) : BitVec 64 :=
  let h := 1469598103934665603#64
  let h := (h ^^^ storageId) * 1099511628211
  let h := (h ^^^ rowNumber) * 1099511628211
  finish h

/-- The classes of advisory locks. -/
def lockclassDeleteVector : ℕ := 101

def lockclassRowIdentity : ℕ := 104

/-- `LOCKTAG`, as `SET_LOCKTAG_ADVISORY` fills it. -/
structure LockTag where
  db : BitVec 32
  key1 : BitVec 32
  key2 : BitVec 32
  lockclass : ℕ
  deriving DecidableEq

/-- `DeleteVectorChunkBuffer`, as far as a flush takes locks for it. -/
structure Chunk where
  stripeId : BitVec 64
  chunkId : BitVec 32
  startRowNumber : BitVec 64
  mask : List Byte

/-- The order that `delete_vector_chunk_cmp` sorts by. -/
def chunkLe (a b : Chunk) : Bool :=
  if a.stripeId ≠ b.stripeId then decide (a.stripeId < b.stripeId)
  else if a.chunkId ≠ b.chunkId then decide (a.chunkId.toInt < b.chunkId.toInt)
  else decide (a.startRowNumber ≤ b.startRowNumber)

/-- The rows that a chunk marks. -/
def Chunk.rows (c : Chunk) : List (BitVec 64) :=
  ((List.range (8 * c.mask.length)).filter fun i => bitAt c.mask i).map fun i =>
    c.startRowNumber + BitVec.ofNat 64 i

/-- `RowLockEntry` -/
structure RowLockEntry where
  bucket : BitVec 32
  rowNumber : BitVec 64

/-- The order that `rowlockentry_cmp` sorts by. -/
def entryLe (a b : RowLockEntry) : Bool :=
  if a.bucket ≠ b.bucket then decide (a.bucket < b.bucket) else decide (a.rowNumber ≤ b.rowNumber)

/-- The database, the storage, and `pgcolumnar.row_lock_buckets`, which all sessions share. -/
structure Setting where
  db : BitVec 32
  storageId : BitVec 64
  rowLockBuckets : BitVec 32

namespace Setting

variable (g : Setting)

/-- `numBuckets`, at least 1. -/
def numBuckets : ℕ := max 1 g.rowLockBuckets.toInt.toNat

def entry (row : BitVec 64) : RowLockEntry :=
  ⟨BitVec.ofNat 32 ((rowIdentityLockKey g.storageId row).toNat % g.numBuckets), row⟩

def rowTag (bucket : BitVec 32) : LockTag :=
  ⟨g.db, g.storageId.setWidth 32, bucket, lockclassRowIdentity⟩

/-- `delete_vector_lock_chunk_group` -/
def chunkTag (stripeId : BitVec 64) (chunkId : BitVec 32) : LockTag :=
  let key := deleteVectorChunkLockKey g.storageId stripeId chunkId
  ⟨g.db, (key >>> 32).setWidth 32, key.setWidth 32, lockclassDeleteVector⟩

/-- The locks of `PgColumnarSerializeFlushRows`; the count of the rows is passed as an `int`. -/
def serializeFlushRows (rows : List (BitVec 64)) : List LockTag :=
  (((rows.take (BitVec.ofNat 32 rows.length).toInt.toNat).map g.entry).mergeSort entryLe).map
    fun e =>
    g.rowTag e.bucket

/-- The locks of `delete_vector_flush_buffer`, in the order in which it takes them.  `rowLock` is
`pgcolumnar.enable_row_update_lock` of the session. -/
def flushTags (rowLock : Bool) (chunks : List Chunk) : List LockTag :=
  let chunks := chunks.mergeSort chunkLe
  (if rowLock then g.serializeFlushRows (chunks.flatMap Chunk.rows) else []) ++
    -- the upsert locks the whole row group, as chunk 0
    chunks.map fun c => g.chunkTag c.stripeId 0

end Setting

/-! ### The mix -/

theorem xorShift_involutive (x : BitVec 64) :
    (x ^^^ (x >>> 33)) ^^^ ((x ^^^ (x >>> 33)) >>> 33) = x := by
  have hout : x >>> 33 >>> 33 = 0#64 := by
    rw [← shiftRight_add]
    exact ushiftRight_eq_zero (by decide)
  rw [BitVec.ushiftRight_xor_distrib, hout, BitVec.xor_zero, BitVec.xor_assoc, BitVec.xor_self,
    BitVec.xor_zero]

theorem xorShift_injective : Function.Injective fun x : BitVec 64 => x ^^^ (x >>> 33) := by
  intro x y h
  dsimp only at h
  rw [← xorShift_involutive x, ← xorShift_involutive y, h]

theorem mul_injective {a b : BitVec 64} (h : a * b = 1#64) : Function.Injective fun x :
    BitVec 64 => x * a := by
  intro x y hxy
  have := congrArg (· * b) hxy
  rwa [BitVec.mul_assoc, BitVec.mul_assoc, h, BitVec.mul_one, BitVec.mul_one] at this

/-- The inverses of the odd factors. -/
theorem mul_prime_injective : Function.Injective fun x : BitVec 64 => x * 1099511628211 :=
  mul_injective (b := 0xce965057aff6957b) (by decide)

theorem finish_injective : Function.Injective finish :=
  ((((xorShift_injective.comp (mul_injective (b := 0x9cb4b2f8129337db) (by decide))).comp
    xorShift_injective).comp (mul_injective (b := 0x4f74430c22a54005) (by decide))).comp
      xorShift_injective)

/-- **The row groups of a storage have keys of their own.** -/
theorem deleteVectorChunkLockKey_injective (storageId : BitVec 64) (chunkId : BitVec 32) :
    Function.Injective fun stripeId => deleteVectorChunkLockKey storageId stripeId chunkId := by
  intro x y h
  have h₁ := mul_prime_injective (finish_injective h)
  rw [xor_left_inj] at h₁
  exact (xor_right_inj _).mp (mul_prime_injective h₁)

/-! ### One order -/

namespace Setting

variable (g : Setting)

/-- The row group of a key. -/
noncomputable def groupOf (key : BitVec 64) : BitVec 64 :=
  Function.invFun (fun stripeId => deleteVectorChunkLockKey g.storageId stripeId 0) key

theorem groupOf_key (stripeId : BitVec 64) :
    g.groupOf (deleteVectorChunkLockKey g.storageId stripeId 0) = stripeId :=
  Function.leftInverse_invFun (deleteVectorChunkLockKey_injective g.storageId 0) stripeId

/-- The place of a tag: the buckets of rows first, then the row groups by number.  The fields behind
make different tags different. -/
noncomputable def rank (t : LockTag) : List ℕ :=
  (if t.lockclass = lockclassRowIdentity then [0, t.key2.toNat]
    else [1, (g.groupOf (t.key1 ++ t.key2)).toNat]) ++
      [t.db.toNat, t.key1.toNat, t.key2.toNat, t.lockclass]

theorem rank_injective : Function.Injective g.rank := by
  intro a b h
  have hend : ∀ t : LockTag, (g.rank t).drop 2 =
    [t.db.toNat, t.key1.toNat, t.key2.toNat, t.lockclass] := by
    intro t
    unfold rank
    split_ifs <;> rfl
  have hfields := (hend a).symm.trans ((congrArg (List.drop 2) h).trans (hend b))
  simp only [List.cons.injEq, and_true] at hfields
  obtain ⟨h₁, h₂, h₃, h₄⟩ := hfields
  cases a
  cases b
  simp only [LockTag.mk.injEq]
  exact ⟨eq_of_toNat_eq h₁, eq_of_toNat_eq h₂, eq_of_toNat_eq h₃, h₄⟩

/-- The order of the tags. -/
def before (a b : LockTag) : Prop := g.rank a < g.rank b

instance : IsStrictTotalOrder LockTag g.before where
  irrefl a := lt_irrefl (g.rank a)
  trans _ _ _ := lt_trans
  trichotomous _ _ hab hba := g.rank_injective (le_antisymm (not_lt.mp hba) (not_lt.mp hab))

theorem rowTag_ascends {a b : RowLockEntry} (h : entryLe a b = true) :
    g.rowTag a.bucket = g.rowTag b.bucket ∨ g.before (g.rowTag a.bucket) (g.rowTag b.bucket) := by
  by_cases hab : a.bucket = b.bucket
  · exact .inl (congrArg g.rowTag hab)
  · right
    rw [entryLe, if_pos hab, decide_eq_true_eq] at h
    exact List.Lex.cons (List.Lex.rel h)

theorem append_halves (key : BitVec 64) : (key >>> 32).setWidth 32 ++ key.setWidth 32 = key := by
  apply eq_of_getLsbD_eq
  intro i hi
  rw [getLsbD_append, getLsbD_setWidth, getLsbD_setWidth, getLsbD_ushiftRight]
  split_ifs with hlow
  · simp [hlow]
  · have hsub : i - 32 < 32 := by omega
    have hadd : 32 + (i - 32) = i := by omega
    simp [hsub, hadd]

theorem rank_chunkTag (stripeId : BitVec 64) :
    ∃ rest, g.rank (g.chunkTag stripeId 0) = 1 :: stripeId.toNat :: rest := by
  have hgroup : g.groupOf ((g.chunkTag stripeId 0).key1 ++ (g.chunkTag stripeId 0).key2) =
    stripeId := by
    change g.groupOf ((deleteVectorChunkLockKey g.storageId stripeId 0 >>> 32).setWidth 32 ++
      (deleteVectorChunkLockKey g.storageId stripeId 0).setWidth 32) = stripeId
    rw [append_halves, groupOf_key]
  have hclass : (g.chunkTag stripeId 0).lockclass ≠ lockclassRowIdentity := by
    change lockclassDeleteVector ≠ lockclassRowIdentity
    decide
  rw [rank, if_neg hclass, hgroup]
  exact ⟨_, rfl⟩

theorem chunkTag_ascends {a b : Chunk} (h : chunkLe a b = true) :
    g.chunkTag a.stripeId 0 = g.chunkTag b.stripeId 0 ∨
      g.before (g.chunkTag a.stripeId 0) (g.chunkTag b.stripeId 0) := by
  by_cases hab : a.stripeId = b.stripeId
  · exact .inl (congrArg (g.chunkTag · 0) hab)
  · right
    rw [chunkLe, if_pos hab, decide_eq_true_eq] at h
    obtain ⟨rest, ha⟩ := g.rank_chunkTag a.stripeId
    obtain ⟨rest', hb⟩ := g.rank_chunkTag b.stripeId
    rw [before, ha, hb]
    exact List.Lex.cons (List.Lex.rel h)

theorem rowTag_before_chunkTag (bucket : BitVec 32) (stripeId : BitVec 64) :
    g.before (g.rowTag bucket) (g.chunkTag stripeId 0) := by
  obtain ⟨rest, hrank⟩ := g.rank_chunkTag stripeId
  rw [before, hrank]
  exact List.Lex.rel Nat.one_pos

/-! ### The locks of a flush -/

theorem chunkLe_iff {a b : Chunk} : chunkLe a b = true ↔ a.stripeId.toNat < b.stripeId.toNat ∨
    a.stripeId.toNat = b.stripeId.toNat ∧ (a.chunkId.toInt < b.chunkId.toInt ∨
      a.chunkId.toInt = b.chunkId.toInt ∧ a.startRowNumber.toNat ≤ b.startRowNumber.toNat) := by
  rw [← toNat_eq, toInt_inj]
  unfold chunkLe
  split_ifs with hstripe hchunk
  · rw [decide_eq_true_eq, lt_def, or_iff_left fun h => hstripe h.1]
  · rw [decide_eq_true_eq, not_not.mp hstripe, or_iff_right (lt_irrefl _), and_iff_right rfl,
      or_iff_left fun h => hchunk h.1]
  · rw [decide_eq_true_eq, not_not.mp hstripe, not_not.mp hchunk, le_def,
      or_iff_right (lt_irrefl _),
      and_iff_right rfl, or_iff_right (lt_irrefl _), and_iff_right rfl]

theorem entryLe_iff {a b : RowLockEntry} : entryLe a b = true ↔ a.bucket.toNat < b.bucket.toNat ∨
    a.bucket.toNat = b.bucket.toNat ∧ a.rowNumber.toNat ≤ b.rowNumber.toNat := by
  rw [← toNat_eq]
  unfold entryLe
  split_ifs with hbucket
  · rw [decide_eq_true_eq, lt_def, or_iff_left fun h => hbucket h.1]
  · rw [decide_eq_true_eq, not_not.mp hbucket, le_def, or_iff_right (lt_irrefl _),
      and_iff_right rfl]

theorem chunkLe_trans (a b c : Chunk) (h : chunkLe a b = true) (h' : chunkLe b c = true) :
    chunkLe a c = true := by
  rw [chunkLe_iff] at *
  omega

theorem chunkLe_total (a b : Chunk) : (chunkLe a b || chunkLe b a) = true := by
  rw [Bool.or_eq_true, chunkLe_iff, chunkLe_iff]
  omega

theorem entryLe_trans (a b c : RowLockEntry) (h : entryLe a b = true) (h' : entryLe b c = true) :
    entryLe a c = true := by
  rw [entryLe_iff] at *
  omega

theorem entryLe_total (a b : RowLockEntry) : (entryLe a b || entryLe b a) = true := by
  rw [Bool.or_eq_true, entryLe_iff, entryLe_iff]
  omega

theorem serializeFlushRows_ascends (rows : List (BitVec 64)) :
    Ascending g.before (g.serializeFlushRows rows) := by
  unfold Ascending serializeFlushRows
  rw [List.pairwise_map]
  exact (List.pairwise_mergeSort entryLe_trans entryLe_total _).imp fun h => g.rowTag_ascends h

/-- **All flushes of a storage take their locks in one order.** -/
theorem flushTags_ascends (rowLock : Bool) (chunks : List Chunk) :
    Ascending g.before (g.flushTags rowLock chunks) := by
  unfold flushTags
  refine List.pairwise_append.mpr ⟨?_, ?_, ?_⟩
  · cases rowLock with
    | false => exact List.Pairwise.nil
    | true => exact g.serializeFlushRows_ascends _
  · rw [List.pairwise_map]
    exact (List.pairwise_mergeSort chunkLe_trans chunkLe_total _).imp fun h => g.chunkTag_ascends h
  · intro a ha b hb
    right
    obtain ⟨c, -, rfl⟩ := List.mem_map.mp hb
    cases rowLock with
    | false => cases ha
    | true =>
      obtain ⟨e, -, rfl⟩ := List.mem_map.mp ha
      exact g.rowTag_before_chunkTag e.bucket c.stripeId

end Setting

/-- **Flushes do not deadlock**: the row groups of a storage have keys of their own, the tags of any
flush ascend strictly in one total order but for repeats, and no transactions that are each inside a
flush of the storage wait for each other in a cycle. -/
theorem flush_order (g : Setting) :
    (Function.Injective fun stripeId => deleteVectorChunkLockKey g.storageId stripeId 0) ∧
      ∃ lt : LockTag → LockTag → Prop, IsStrictTotalOrder LockTag lt ∧
        (∀ rowLock chunks, (g.flushTags rowLock chunks).dedup.Pairwise lt) ∧
        ∀ (T : Type) [DecidableEq T] (rowLock : T → Bool) (chunks : T → List Chunk) as s,
          Run.run step (start fun t => g.flushTags (rowLock t) (chunks t)) as = some s →
          ∀ t, ¬ Relation.TransGen (Waits s) t t := by
  refine ⟨deleteVectorChunkLockKey_injective g.storageId 0, g.before, inferInstance, ?_, ?_⟩
  · intro rowLock chunks
    exact (g.flushTags_ascends rowLock chunks).dedup
  · intro T _ rowLock chunks as s hrun t
    exact not_cycle (fun u => g.flushTags_ascends (rowLock u) (chunks u)) hrun t

end PgColumnar.Delete.FlushOrder
