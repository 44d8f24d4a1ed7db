import Mathlib.Data.Finset.Sort
import PgColumnar.Lib.Bitmap
import PgColumnar.Lib.Emit

/-!
# Portable roaring bitmaps

The vector of a deletion vector blob: buckets of 32-bit roaring bitmaps, each a sequence of
containers for 65536 values.  The decoder reads it in one pass and skips the offset header.

## Main definitions

* `pfVector` — the decoder.
* `RoaringOf`, `Container`, `Bitmap` — the format.

## Main results

* `pfVector_ok_iff` — the decoder accepts exactly the encodings.
-/

namespace PgColumnar.Iceberg

open Bytes Cursor List Nat

def puffinMaxPositions : ℕ := 16 * 1024 * 1024

inductive PuffinError
  | fault
  | truncated
  | maxPositions
  | unknownCookie (cookie : ℕ)
  | containers (size : ℕ)
  | runOverflow
  | notPuffin
  | compressedFooter
  | reservedFlags (flags : ℕ)
  | malformedFooter
  | payloadSyntax
  | numericRange
  | noBlobs
  | notDeletionVector (offset : ℤ)
  | compressionCodec
  | otherDataFile
  | noSuchBlob (offset size : ℤ)
  | outsideBlobRegion
  | lengthPrefix
  | badMagic
  | crcMismatch
  | buckets (nbuckets : ℕ)
  | outOfOrder
  | trailingBytes

section Decoder

variable (mem : List Byte) (fin : ℕ)

/-- `pf_need` -/
def pfNeed (p n : ℕ) : Except PuffinError Unit := if fin - p < n then .error .truncated else .ok ()

def pfFetch (p n : ℕ) : Except PuffinError (List Byte) :=
  match takeAt mem p n with
  | .ok bs => .ok bs
  | .error _ => .error .fault

/-- A little-endian number of `k` bytes, and the position behind it. -/
def pfLe (k p : ℕ) : Except PuffinError (ℕ × ℕ) := do
  pfNeed fin p k
  let bs ← pfFetch mem p k
  return (leNat bs, p + k)

/-- `pf_u16` -/
def pfU16 (p : ℕ) : Except PuffinError (ℕ × ℕ) := pfLe mem fin 2 p

/-- `pf_u32` -/
def pfU32 (p : ℕ) : Except PuffinError (ℕ × ℕ) := pfLe mem fin 4 p

/-- `pf_u64` -/
def pfU64 (p : ℕ) : Except PuffinError (ℕ × ℕ) := do
  let (lo, p) ← pfU32 mem fin p
  let (hi, p) ← pfU32 mem fin p
  return (lo ||| hi <<< 32, p)

/-- `pf_emit` -/
def pfEmit (out : List ℕ) (v : ℕ) : Except PuffinError (List ℕ) :=
  if puffinMaxPositions ≤ out.length then .error .maxPositions else .ok (out ++ [v])

/-- The values of a run, from its `v`-th on. -/
def pfRunValues (kbase start : ℕ) : ℕ → ℕ → List ℕ → Except PuffinError (List ℕ)
  | 0, _, out => .ok out
  | n + 1, v, out => do
    let out ← pfEmit out (kbase ||| (start + v))
    pfRunValues kbase start n (v + 1) out

def pfRun (kbase : ℕ) (s : ℕ × List ℕ) : Except PuffinError (ℕ × List ℕ) := do
  let (start, p) ← pfU16 mem fin s.1
  let (len, p) ← pfU16 mem fin p
  if 65536 < start + (len + 1) then .error .runOverflow
  else
    let out ← pfRunValues kbase start (len + 1) 0 s.2
    return (p, out)

def pfArrayValue (kbase : ℕ) (s : ℕ × List ℕ) : Except PuffinError (ℕ × List ℕ) := do
  let (v, p) ← pfU16 mem fin s.1
  let out ← pfEmit s.2 (kbase ||| v)
  return (p, out)

/-- The bits of the `w`-th word, from the `b`-th on. -/
def pfWordBits (kbase w word : ℕ) : ℕ → ℕ → List ℕ → Except PuffinError (List ℕ)
  | 0, _, out => .ok out
  | n + 1, b, out => do
    let out ← if word.testBit b then pfEmit out (kbase ||| (w * 64 + b)) else .ok out
    pfWordBits kbase w word n (b + 1) out

def pfWord (kbase w : ℕ) (s : ℕ × List ℕ) : Except PuffinError (ℕ × List ℕ) := do
  let (word, p) ← pfU64 mem fin s.1
  if word = 0 then .ok (p, s.2)
  else
    let out ← pfWordBits kbase w word 64 0 s.2
    return (p, out)

def pfWords (kbase : ℕ) : ℕ → ℕ → ℕ × List ℕ → Except PuffinError (ℕ × List ℕ)
  | 0, _, s => .ok s
  | n + 1, w, s => do
    let s ← pfWord mem fin kbase w s
    pfWords kbase n (w + 1) s

/-- Whether the `i`-th container is marked as a run container. -/
def pfIsRun (runbits : Option ℕ) (i : ℕ) : Except PuffinError Bool :=
  match runbits with
  | none => .ok false
  | some at_ => do
    let bs ← pfFetch mem (at_ + i / 8) 1
    return (leNat bs).testBit (i % 8)

def pfContainer (kbase card : ℕ) (isRun : Bool) (s : ℕ × List ℕ) :
    Except PuffinError (ℕ × List ℕ) :=
  if isRun then do
    let (nruns, p) ← pfU16 mem fin s.1
    times (pfRun mem fin kbase) nruns (p, s.2)
  else if card ≤ 4096 then times (pfArrayValue mem fin kbase) card s
  else do
    pfNeed fin s.1 8192
    pfWords mem fin kbase 1024 0 s

def pfContainers (base : ℕ) (runbits : Option ℕ) :
    List (ℕ × ℕ) → ℕ → ℕ × List ℕ → Except PuffinError (ℕ × List ℕ)
  | [], _, s => .ok s
  | (key, card) :: entries, i, s => do
    let isRun ← pfIsRun mem runbits i
    let s ← pfContainer mem fin (base ||| key <<< 16) card isRun s
    pfContainers base runbits entries (i + 1) s

/-- The descriptive header: the keys and cardinalities, and the position behind it. -/
def pfEntries : ℕ → ℕ → Except PuffinError (List (ℕ × ℕ) × ℕ)
  | 0, p => .ok ([], p)
  | n + 1, p => do
    let (key, p) ← pfU16 mem fin p
    let (card, p) ← pfU16 mem fin p
    let (entries, p) ← pfEntries n p
    return ((key, card + 1) :: entries, p)

/-- The cookie's two forms: the number of containers, where the run marks stand, and the position
behind them. -/
def pfCookie (cookie p : ℕ) : Except PuffinError (ℕ × Option ℕ × ℕ) :=
  if cookie = 12346 then do
    let (size, p) ← pfU32 mem fin p
    return (size, none, p)
  else if cookie % 65536 = 12347 then do
    let size := cookie / 65536 + 1
    pfNeed fin p ((size + 7) / 8)
    return (size, some p, p + (size + 7) / 8)
  else .error (.unknownCookie cookie)

/-- The position behind the offset header, which is skipped. -/
def pfSkipOffsets (cookie size p : ℕ) : Except PuffinError ℕ :=
  if cookie = 12346 ∨ cookie % 65536 = 12347 ∧ 4 ≤ size then do
    pfNeed fin p (4 * size)
    return p + 4 * size
  else .ok p

/-- What follows the cookie: the headers and the containers. -/
def pfSized (base cookie size : ℕ) (runbits : Option ℕ) (s : ℕ × List ℕ) :
    Except PuffinError (ℕ × List ℕ) :=
  if 65536 < size then .error (.containers size)
  else do
    let (entries, p) ← pfEntries mem fin size s.1
    let p ← pfSkipOffsets fin cookie size p
    pfContainers mem fin base runbits entries 0 (p, s.2)

/-- `pf_roaring32` -/
def pfRoaring32 (base : ℕ) (s : ℕ × List ℕ) : Except PuffinError (ℕ × List ℕ) := do
  let (cookie, p) ← pfU32 mem fin s.1
  let (size, runbits, p) ← pfCookie mem fin cookie p
  pfSized mem fin base cookie size runbits (p, s.2)

def pfBuckets : ℕ → ℕ → ℕ → ℕ × List ℕ → Except PuffinError (ℕ × List ℕ)
  | 0, _, _, s => .ok s
  | n + 1, b, prevkey, s => do
    let (key, p) ← pfU32 mem fin s.1
    if 0 < b ∧ key ≤ prevkey then .error .outOfOrder
    else
      let s ← pfRoaring32 mem fin (key <<< 32) (p, s.2)
      pfBuckets n (b + 1) key s

/-- The last part of `PgColumnarPuffinReadDeletionVector`: the portable 64-bit bitmap at `p`. -/
def pfVector (p : ℕ) : Except PuffinError (List ℕ) := do
  let (nbuckets, p) ← pfU64 mem fin p
  if 4294967295 < nbuckets then .error (.buckets nbuckets)
  else
    let (p, out) ← pfBuckets mem fin nbuckets 0 0 (p, [])
    if p = fin then .ok out else .error .trailingBytes

end Decoder

/-! ### The format -/

/-- The body of a container. -/
inductive Payload
  | array (vals : List ℕ)
  | bitset (bits : List Byte)
  /-- start and length -/
  | run (runs : List (ℕ × ℕ))

structure Container where
  key : ℕ
  card : ℕ
  payload : Payload

namespace Payload

def isRun : Payload → Bool
  | run _ => true
  | _ => false

def values : Payload → List ℕ
  | array vals => vals
  | bitset bits => (List.range 65536).filter (bitAt bits)
  | run runs => runs.flatMap fun r => List.range' r.1 r.2

def runBytes (r : ℕ × ℕ) : List Byte := leBytes 2 r.1 ++ leBytes 2 (r.2 - 1)

def bytes : Payload → List Byte
  | array vals => vals.flatMap (leBytes 2)
  | bitset bits => bits
  | run runs => leBytes 2 runs.length ++ runs.flatMap runBytes

def RunFits (r : ℕ × ℕ) : Prop := 1 ≤ r.2 ∧ r.1 + r.2 ≤ 65536

def Fits (card : ℕ) : Payload → Prop
  | array vals => vals.length = card ∧ card ≤ 4096 ∧ ∀ v ∈ vals, v < 65536
  | bitset bits => 4096 < card ∧ bits.length = 8192
  | run runs => runs.length < 65536 ∧ ∀ r ∈ runs, RunFits r

end Payload

namespace Container

def entryBytes (e : ℕ × ℕ) : List Byte := leBytes 2 e.1 ++ leBytes 2 (e.2 - 1)

def EntryFits (e : ℕ × ℕ) : Prop := e.1 < 65536 ∧ 1 ≤ e.2 ∧ e.2 ≤ 65536

def entry (c : Container) : ℕ × ℕ := (c.key, c.card)

def Fits (c : Container) : Prop := EntryFits c.entry ∧ c.payload.Fits c.card

/-- The positions of a container in the bucket with the base. -/
def positions (base : ℕ) (c : Container) : List ℕ :=
  c.payload.values.map (base ||| c.key <<< 16 ||| ·)

end Container

/-! ### Reading numbers -/

section Numbers

variable {mem : List Byte} {fin k p p' v : ℕ} {out out' : List ℕ}

theorem pfLe_ok_iff (hfin : fin ≤ mem.length) (hp : p ≤ fin) :
    pfLe mem fin k p = .ok (v, p') ↔ v < 256 ^ k ∧ Reads mem fin (leBytes k v) p p' := by
  unfold pfLe pfNeed pfFetch
  by_cases hlt : fin - p < k
  · have hnot : ¬ Reads mem fin (leBytes k v) p p' := by
      intro h
      have hpos := h.2.1
      have hle := h.le
      rw [length_leBytes] at hpos
      omega
    simp [hlt, hnot, bind, Except.bind]
  · obtain ⟨bs, hbs, hat, hlen⟩ := takeAt_ok (show p + k ≤ mem.length by omega)
    simp only [hlt, if_false, hbs, bind, Except.bind, pure, Except.pure, Except.ok.injEq,
      Prod.mk.injEq]
    constructor
    · intro h
      obtain ⟨rfl, rfl⟩ := h
      refine ⟨hlen ▸ leNat_lt bs, ?_, by simp, by omega⟩
      rw [← hlen, leBytes_leNat]
      exact hat
    · intro h
      obtain ⟨hv, hread, rfl, -⟩ := h
      have htake := takeAt_of_at hread
      rw [length_leBytes, hbs] at htake
      cases htake
      exact ⟨leNat_leBytes_of_lt hv, by simp⟩

theorem pfLe_ne_fault (hfin : fin ≤ mem.length) (hp : p ≤ fin) :
    pfLe mem fin k p ≠ .error .fault := by
  unfold pfLe pfNeed pfFetch
  by_cases hlt : fin - p < k
  · simp [hlt, bind, Except.bind]
  · obtain ⟨bs, hbs, -⟩ := takeAt_ok (show p + k ≤ mem.length by omega)
    simp [hlt, hbs, bind, Except.bind, pure, Except.pure]

theorem leBytes_add (j k v : ℕ) : leBytes (j + k) v = leBytes j v ++ leBytes k (v / 256 ^ j) := by
  induction j generalizing v with
  | zero => simp [leBytes]
  | succ j ih =>
    rw [Nat.succ_add, leBytes, leBytes, ih, cons_append, Nat.div_div_eq_div_mul, ← pow_succ']

theorem pfU64_ok_iff (hfin : fin ≤ mem.length) (hp : p ≤ fin) :
    pfU64 mem fin p = .ok (v, p') ↔ v < 2 ^ 64 ∧ Reads mem fin (leBytes 8 v) p p' := by
  rw [pfU64, bind_eq_ok]
  constructor
  · intro h
    obtain ⟨⟨lo, q⟩, hlo, h⟩ := h
    obtain ⟨hlo, hread⟩ := (pfLe_ok_iff hfin hp).mp hlo
    obtain ⟨⟨hi, q'⟩, hhi, h⟩ := bind_eq_ok.mp h
    obtain ⟨hhi, hread'⟩ := (pfLe_ok_iff hfin hread.le).mp hhi
    cases h
    have hsum : lo ||| hi <<< 32 = 2 ^ 32 * hi + lo := by
      rw [Nat.or_comm, Nat.shiftLeft_eq, Nat.mul_comm, Nat.two_pow_add_eq_or_of_lt (by omega)]
    have hmod : leBytes 4 (lo ||| hi <<< 32) = leBytes 4 lo := by
      rw [← leBytes_mod, hsum, ← leBytes_mod 4 lo]
      congr 1
      omega
    have hdiv : (lo ||| hi <<< 32) / 256 ^ 4 = hi := by
      rw [hsum]
      omega
    refine ⟨by rw [hsum]; omega, ?_⟩
    rw [leBytes_add 4 4, hmod, hdiv]
    exact reads_append.mp ⟨q, hread, hread'⟩
  · intro h
    obtain ⟨hv, hread⟩ := h
    rw [leBytes_add 4 4] at hread
    obtain ⟨q, hlo, hhi⟩ := reads_append.mpr hread
    rw [← leBytes_mod] at hlo
    refine ⟨_, (pfLe_ok_iff hfin hp).mpr ⟨mod_lt _ (by norm_num), hlo⟩, bind_eq_ok.mpr ?_⟩
    refine ⟨_, (pfLe_ok_iff hfin hlo.le).mpr ⟨by omega, hhi⟩, ?_⟩
    have hsum : v % 256 ^ 4 ||| (v / 256 ^ 4) <<< 32 = v := by
      rw [Nat.or_comm, Nat.shiftLeft_eq, Nat.mul_comm, ← Nat.two_pow_add_eq_or_of_lt (by omega)]
      omega
    show Except.ok (v % 256 ^ 4 ||| (v / 256 ^ 4) <<< 32, p') = .ok (v, p')
    rw [hsum]

theorem pfU64_ne_fault (hfin : fin ≤ mem.length) (hp : p ≤ fin) :
    pfU64 mem fin p ≠ .error .fault := by
  refine bind_ne_fault (pfLe_ne_fault hfin hp) fun lo hlo => ?_
  have hread := ((pfLe_ok_iff hfin hp).mp hlo).2
  exact bind_ne_fault (pfLe_ne_fault hfin hread.le) fun hi _ => by simp [pure, Except.pure]

/-! ### Emitting -/

theorem pfEmit_ok_iff :
    pfEmit out v = .ok out' ↔ out' = out ++ [v] ∧ out'.length ≤ puffinMaxPositions := by
  unfold pfEmit
  split
  · next h =>
    simp only [reduceCtorEq, false_iff, not_and]
    intro hout
    rw [hout, length_append, length_singleton]
    omega
  · next h =>
    simp only [Except.ok.injEq, eq_comm (a := out'), iff_self_and]
    intro hout
    rw [← hout, length_append, length_singleton]
    omega

theorem pfEmit_ne_fault : pfEmit out v ≠ .error .fault := by
  unfold pfEmit
  split <;> simp

theorem emits_ok_iff (hout : out.length ≤ puffinMaxPositions) (vs : List ℕ) :
    vs.foldlM pfEmit out = .ok out' ↔ out' = out ++ vs ∧ out'.length ≤ puffinMaxPositions := by
  induction vs generalizing out with
  | nil =>
    simp only [foldlM_nil, pure, Except.pure, Except.ok.injEq, append_nil,
      eq_comm (a := out'), iff_self_and]
    intro h
    rwa [← h]
  | cons v vs ih =>
    rw [foldlM_cons, bind_eq_ok]
    constructor
    · intro h
      obtain ⟨mid, hmid, h⟩ := h
      obtain ⟨rfl, hlen⟩ := pfEmit_ok_iff.mp hmid
      obtain ⟨rfl, hlen'⟩ := (ih hlen).mp h
      exact ⟨by simp, hlen'⟩
    · intro h
      obtain ⟨rfl, hlen⟩ := h
      have hmid : (out ++ [v]).length ≤ puffinMaxPositions := by
        simp only [length_append, length_cons, length_nil] at hlen ⊢
        omega
      exact ⟨_, pfEmit_ok_iff.mpr ⟨rfl, hmid⟩, (ih hmid).mpr ⟨by simp, hlen⟩⟩

theorem emits_ne_fault (vs : List ℕ) : vs.foldlM pfEmit out ≠ .error .fault := by
  induction vs generalizing out with
  | nil => simp [pure, Except.pure]
  | cons v vs ih =>
    rw [foldlM_cons]
    exact bind_ne_fault pfEmit_ne_fault fun mid _ => ih

theorem pfRunValues_eq (kbase start n v : ℕ) (out : List ℕ) : pfRunValues kbase start n v out =
      ((List.range' (start + v) n).map (kbase ||| ·)).foldlM pfEmit out := by
  induction n generalizing v out with
  | zero => rfl
  | succ n ih =>
    rw [pfRunValues, range'_succ, map_cons, foldlM_cons]
    simp only [ih, add_assoc]

theorem pfWordBits_eq (kbase w word n b : ℕ) (out : List ℕ) : pfWordBits kbase w word n b out =
      (((List.range' b n).filter word.testBit).map fun i =>
        kbase ||| (w * 64 + i)).foldlM pfEmit out := by
  induction n generalizing b out with
  | zero => rfl
  | succ n ih =>
    rw [pfWordBits, range'_succ, filter_cons]
    cases word.testBit b with
    | false => simpa [bind, Except.bind] using ih (b + 1) out
    | true =>
      simp only [if_true, map_cons, foldlM_cons, ih]

end Numbers

/-! ### Containers -/

section Containers

variable {mem : List Byte} {fin : ℕ} {s s' : ℕ × List ℕ}

theorem decodes_pfRun (hfin : fin ≤ mem.length) (kbase : ℕ) :
    Decodes mem fin puffinMaxPositions PuffinError.fault Payload.RunFits Payload.runBytes
      (fun r => (List.range' r.1 r.2).map (kbase ||| ·)) (pfRun mem fin kbase) := by
  intro s hs
  constructor
  · refine bind_ne_fault (pfLe_ne_fault hfin hs.1) fun start hstart => ?_
    have hread := ((pfLe_ok_iff hfin hs.1).mp hstart).2
    refine bind_ne_fault (pfLe_ne_fault hfin hread.le) fun len _ => ?_
    dsimp only
    split
    · simp
    · rw [pfRunValues_eq]
      exact bind_ne_fault (emits_ne_fault _) fun out _ => by simp [pure, Except.pure]
  · intro s'
    constructor
    · intro h
      obtain ⟨⟨start, q⟩, hstart, h⟩ := bind_eq_ok.mp h
      obtain ⟨hslt, hread⟩ := (pfLe_ok_iff hfin hs.1).mp hstart
      obtain ⟨⟨len, q'⟩, hlen, h⟩ := bind_eq_ok.mp h
      obtain ⟨hllt, hread'⟩ := (pfLe_ok_iff hfin hread.le).mp hlen
      dsimp only at h
      split_ifs at h with hfits
      obtain ⟨out, hout, h⟩ := bind_eq_ok.mp h
      cases h
      rw [pfRunValues_eq, emits_ok_iff hs.2] at hout
      refine ⟨(start, len + 1), ⟨by simp, by simpa using hfits⟩, ?_, hout⟩
      exact reads_append.mp ⟨q, hread, hread'⟩
    · intro h
      obtain ⟨⟨start, len⟩, ⟨hpos, hfits⟩, hread, hvals⟩ := h
      obtain ⟨q, hstart, hlen⟩ := reads_append.mpr hread
      refine bind_eq_ok.mpr ⟨_, (pfLe_ok_iff hfin hs.1).mpr ⟨by norm_num; omega, hstart⟩, ?_⟩
      refine bind_eq_ok.mpr ⟨_, (pfLe_ok_iff hfin hstart.le).mpr ⟨by norm_num; omega, hlen⟩, ?_⟩
      have hone : len - 1 + 1 = len := by omega
      dsimp only
      rw [if_neg (by omega), hone, pfRunValues_eq]
      exact bind_eq_ok.mpr ⟨_, (emits_ok_iff hs.2 _).mpr hvals, rfl⟩

theorem decodes_pfArrayValue (hfin : fin ≤ mem.length) (kbase : ℕ) :
    Decodes mem fin puffinMaxPositions PuffinError.fault (· < 65536) (leBytes 2)
      (fun v => [kbase ||| v]) (pfArrayValue mem fin kbase) := by
  intro s hs
  constructor
  · refine bind_ne_fault (pfLe_ne_fault hfin hs.1) fun v _ => ?_
    exact bind_ne_fault pfEmit_ne_fault fun out _ => by simp [pure, Except.pure]
  · intro s'
    constructor
    · intro h
      obtain ⟨⟨v, q⟩, hv, h⟩ := bind_eq_ok.mp h
      obtain ⟨hlt, hread⟩ := (pfLe_ok_iff hfin hs.1).mp hv
      obtain ⟨out, hout, h⟩ := bind_eq_ok.mp h
      cases h
      exact ⟨v, hlt, hread, pfEmit_ok_iff.mp hout⟩
    · intro h
      obtain ⟨v, hlt, hread, hvals⟩ := h
      refine bind_eq_ok.mpr ⟨_, (pfLe_ok_iff hfin hs.1).mpr ⟨hlt, hread⟩, ?_⟩
      exact bind_eq_ok.mpr ⟨_, pfEmit_ok_iff.mpr hvals, rfl⟩

/-- The values of the words from the `w`-th on. -/
def wordValues (kbase w : ℕ) (bits : List Byte) : List ℕ :=
  ((List.range (8 * bits.length)).filter (bitAt bits)).map fun i => kbase ||| (w * 64 + i)

theorem bitAt_append_left {as bs : List Byte} {i : ℕ} (hi : i < 8 * as.length) :
    bitAt (as ++ bs) i = bitAt as i := by
  rw [bitAt, bitAt, getD_append _ _ _ _ (by omega)]

theorem bitAt_append_right (as bs : List Byte) (i : ℕ) :
    bitAt (as ++ bs) (8 * as.length + i) = bitAt bs i := by
  have hdiv : (8 * as.length + i) / 8 = as.length + i / 8 := by omega
  have hmod : (8 * as.length + i) % 8 = i % 8 := by omega
  rw [bitAt, bitAt, hdiv, hmod, getD_append_right _ _ _ _ (le_add_right _ _),
    Nat.add_sub_cancel_left]

theorem wordValues_append (kbase w : ℕ) {as : List Byte} (has : as.length = 8) (bs : List Byte) :
    wordValues kbase w (as ++ bs) = wordValues kbase w as ++ wordValues kbase (w + 1) bs := by
  have hleft : (List.range (8 * as.length)).filter (bitAt (as ++ bs)) =
      (List.range (8 * as.length)).filter (bitAt as) := by
    apply filter_congr
    intro i hi
    exact bitAt_append_left (mem_range.mp hi)
  have hright : bitAt (as ++ bs) ∘ (8 * as.length + ·) = bitAt bs := by
    funext i
    exact bitAt_append_right as bs i
  unfold wordValues
  rw [length_append, mul_add, range_add, filter_append, hleft, filter_map,
    hright, map_append, map_map, has]
  congr 2
  funext i
  show kbase ||| (w * 64 + (8 * 8 + i)) = kbase ||| ((w + 1) * 64 + i)
  congr 1
  omega

theorem wordValues_leBytes (kbase w : ℕ) {word : ℕ} (hword : word < 2 ^ 64) :
    wordValues kbase w (leBytes 8 word) =
      ((List.range' 0 64).filter word.testBit).map fun i => kbase ||| (w * 64 + i) := by
  have hbits : bitAt (leBytes 8 word) = word.testBit := by
    funext i
    rw [← testBit_leNat, leNat_leBytes_of_lt (by omega)]
  rw [wordValues, hbits, length_leBytes, range_eq_range']

theorem decodes_pfWord (hfin : fin ≤ mem.length) (kbase w : ℕ) :
    Decodes mem fin puffinMaxPositions PuffinError.fault (fun word => word < 2 ^ 64) (leBytes 8)
      (fun word => wordValues kbase w (leBytes 8 word)) (pfWord mem fin kbase w) := by
  intro s hs
  constructor
  · refine bind_ne_fault (pfU64_ne_fault hfin hs.1) fun word _ => ?_
    dsimp only
    split
    · simp
    · rw [pfWordBits_eq]
      exact bind_ne_fault (emits_ne_fault _) fun out _ => by simp [pure, Except.pure]
  · intro s'
    constructor
    · intro h
      obtain ⟨⟨word, q⟩, hword, h⟩ := bind_eq_ok.mp h
      obtain ⟨hlt, hread⟩ := (pfU64_ok_iff hfin hs.1).mp hword
      refine ⟨word, hlt, ?_⟩
      dsimp only at h ⊢
      rw [wordValues_leBytes kbase w hlt]
      split at h
      · next h0 =>
        cases h
        subst h0
        exact ⟨hread, by simp, hs.2⟩
      · obtain ⟨out, hout, h⟩ := bind_eq_ok.mp h
        cases h
        rw [pfWordBits_eq, emits_ok_iff hs.2] at hout
        exact ⟨hread, hout⟩
    · intro h
      obtain ⟨word, hlt, hread, hvals⟩ := h
      dsimp only at hlt hread hvals
      rw [wordValues_leBytes kbase w hlt] at hvals
      refine bind_eq_ok.mpr ⟨_, (pfU64_ok_iff hfin hs.1).mpr ⟨hlt, hread⟩, ?_⟩
      dsimp only
      split
      · next h0 =>
        subst h0
        have hnone : (List.range' 0 64).filter (Nat.testBit 0) = [] := by
          simp [filter_eq_nil_iff]
        rw [hnone, map_nil, append_nil] at hvals
        exact congrArg Except.ok (Prod.ext rfl hvals.1.symm)
      · rw [pfWordBits_eq]
        exact bind_eq_ok.mpr ⟨_, (emits_ok_iff hs.2 _).mpr hvals, rfl⟩

/-- A little-endian number and the bytes it was read from. -/
theorem leBytes_leNat_of_length {bs : List Byte} {k : ℕ} (h : bs.length = k) :
    leBytes k (leNat bs) = bs := by
  subst h
  exact leBytes_leNat bs

theorem decodes_pfWords (hfin : fin ≤ mem.length) (kbase n w : ℕ) :
    Decodes mem fin puffinMaxPositions PuffinError.fault
      (fun bits : List Byte => bits.length = 8 * n)
      (fun bits => bits) (wordValues kbase w) (pfWords mem fin kbase n w) := by
  induction n generalizing w with
  | zero =>
    intro s hs
    refine ⟨by simp [pfWords], fun s' => ?_⟩
    constructor
    · intro h
      cases h
      exact ⟨[], rfl, (takes_nil hfin hs).mpr rfl⟩
    · intro h
      obtain ⟨bits, hlen, htakes⟩ := h
      obtain rfl := length_eq_zero_iff.mp hlen
      rw [(takes_nil hfin hs).mp htakes]
      rfl
  | succ n ih =>
    intro s hs
    obtain ⟨hfault, hstep⟩ := decodes_pfWord hfin kbase w s hs
    have hnext : ∀ t, pfWord mem fin kbase w s = .ok t → Inside fin puffinMaxPositions t := by
      intro t ht
      obtain ⟨word, -, htakes⟩ := (hstep t).mp ht
      exact htakes.inside
    refine ⟨bind_ne_fault hfault fun t ht => (ih (w + 1) t (hnext t ht)).1, fun s' => ?_⟩
    rw [pfWords, bind_eq_ok]
    constructor
    · intro h
      obtain ⟨t, ht, h⟩ := h
      obtain ⟨word, -, htakes⟩ := (hstep t).mp ht
      obtain ⟨bits, hbits, htakes'⟩ := ((ih (w + 1) t (hnext t ht)).2 s').mp h
      refine ⟨leBytes 8 word ++ bits, by simp [hbits]; omega, ?_⟩
      rw [wordValues_append kbase w (length_leBytes 8 word)]
      exact takes_append.mp ⟨t, htakes, htakes'⟩
    · intro h
      obtain ⟨bits, hlen, htakes⟩ := h
      have h8 : (bits.take 8).length = 8 := by
        rw [length_take, hlen]
        omega
      have hvals := wordValues_append kbase w h8 (bits.drop 8)
      rw [take_append_drop] at hvals
      have hsplit : Takes mem fin puffinMaxPositions (bits.take 8 ++ bits.drop 8)
          (wordValues kbase w (bits.take 8) ++ wordValues kbase (w + 1) (bits.drop 8)) s s' := by
        rwa [take_append_drop, ← hvals]
      obtain ⟨t, hfirst, hrest⟩ := takes_append.mpr hsplit
      have hlt : leNat (bits.take 8) < 2 ^ 64 := by
        have hbound := leNat_lt (bits.take 8)
        rw [h8] at hbound
        omega
      rw [← leBytes_leNat_of_length h8] at hfirst
      have ht := (hstep t).mpr ⟨_, hlt, hfirst⟩
      have hdrop : (bits.drop 8).length = 8 * n := by
        rw [length_drop, hlen]
        omega
      exact ⟨t, ht, ((ih (w + 1) t (hnext t ht)).2 s').mpr ⟨_, hdrop, hrest⟩⟩

theorem wordValues_zero (kbase : ℕ) {bits : List Byte} (hlen : bits.length = 8192) :
    wordValues kbase 0 bits = (Payload.bitset bits).values.map (kbase ||| ·) := by
  have hsize : 8 * 8192 = 65536 := by norm_num
  simp only [wordValues, Payload.values, hlen, hsize, zero_mul, zero_add]

theorem decodes_pfContainer (hfin : fin ≤ mem.length) (kbase card : ℕ) (isRun : Bool) :
    Decodes mem fin puffinMaxPositions PuffinError.fault
      (fun x : Payload => x.isRun = isRun ∧ x.Fits card) Payload.bytes
      (fun x => x.values.map (kbase ||| ·)) (pfContainer mem fin kbase card isRun) := by
  intro s hs
  unfold pfContainer
  -- the three layouts: runs, an array of up to 4096 values, a bitset
  cases isRun with
  | true =>
    have htimes := (decodes_pfRun hfin kbase).times hfin
    simp only [if_true]
    constructor
    · refine bind_ne_fault (pfLe_ne_fault hfin hs.1) fun nruns hn => ?_
      have hread := ((pfLe_ok_iff hfin hs.1).mp hn).2
      exact (htimes nruns.1 (nruns.2, s.2) ⟨hread.le, hs.2⟩).1
    · intro s'
      constructor
      · intro h
        obtain ⟨⟨nruns, q⟩, hn, h⟩ := bind_eq_ok.mp h
        obtain ⟨hlt, hread⟩ := (pfLe_ok_iff hfin hs.1).mp hn
        obtain ⟨runs, ⟨hlen, hruns⟩, hrest, hvals⟩ :=
          ((htimes nruns (q, s.2) ⟨hread.le, hs.2⟩).2 s').mp h
        subst hlen
        refine ⟨.run runs, ⟨rfl, hlt, hruns⟩, reads_append.mp ⟨q, hread, hrest⟩, ?_⟩
        simpa [Payload.values, map_flatMap] using hvals
      · intro h
        obtain ⟨x, ⟨hrun, hfits⟩, hread, hvals⟩ := h
        cases x with
        | array | bitset => cases hrun
        | run runs =>
          obtain ⟨q, hn, hrest⟩ := reads_append.mpr hread
          refine bind_eq_ok.mpr ⟨_, (pfLe_ok_iff hfin hs.1).mpr ⟨hfits.1, hn⟩, ?_⟩
          refine ((htimes runs.length (q, s.2) ⟨hn.le, hs.2⟩).2 s').mpr
            ⟨runs, ⟨rfl, hfits.2⟩, hrest, ?_⟩
          simpa [Payload.values, map_flatMap] using hvals
  | false =>
    simp only [Bool.false_eq_true, if_false]
    by_cases hcard : card ≤ 4096
    · obtain ⟨hfault, hstep⟩ := (decodes_pfArrayValue hfin kbase).times hfin card s hs
      simp only [hcard, if_true]
      refine ⟨hfault, fun s' => (hstep s').trans ?_⟩
      constructor
      · intro h
        obtain ⟨vals, ⟨hlen, hvals⟩, htakes⟩ := h
        have hmap := map_eq_flatMap (f := (kbase ||| ·)) (l := vals)
        refine ⟨.array vals, ⟨rfl, hlen, hcard, hvals⟩, ?_⟩
        show Takes mem fin puffinMaxPositions (vals.flatMap (leBytes 2))
          (vals.map (kbase ||| ·)) s s'
        rw [hmap]
        exact htakes
      · intro h
        obtain ⟨x, ⟨hrun, hfits⟩, htakes⟩ := h
        cases x with
        | run => cases hrun
        | bitset => exact absurd hcard (by simpa using hfits.1)
        | array vals =>
          have hmap := map_eq_flatMap (f := (kbase ||| ·)) (l := vals)
          refine ⟨vals, ⟨hfits.1, hfits.2.2⟩, ?_⟩
          show Takes mem fin puffinMaxPositions _ (vals.flatMap fun v => [kbase ||| v]) s s'
          rw [← hmap]
          exact htakes
    · obtain ⟨hfault, hstep⟩ := decodes_pfWords hfin kbase 1024 0 s hs
      simp only [hcard, if_false]
      refine ⟨bind_ne_fault (by unfold pfNeed; split <;> simp) fun _ _ => hfault, fun s' => ?_⟩
      rw [bind_eq_ok]
      constructor
      · intro h
        obtain ⟨_, -, h⟩ := h
        obtain ⟨bits, hlen, htakes⟩ := (hstep s').mp h
        rw [wordValues_zero kbase hlen] at htakes
        exact ⟨.bitset bits, ⟨rfl, by omega, hlen⟩, htakes⟩
      · intro h
        obtain ⟨x, ⟨hrun, hfits⟩, htakes⟩ := h
        cases x with
        | run => cases hrun
        | array => exact absurd hfits.2.1 hcard
        | bitset bits =>
          have hle := htakes.1.le
          have hpos : s'.1 = s.1 + bits.length := htakes.1.2.1
          have hlen : bits.length = 8192 := hfits.2
          refine ⟨(), by rw [pfNeed, if_neg (by omega)], (hstep s').mpr ⟨bits, hlen, ?_⟩⟩
          rw [wordValues_zero kbase hlen]
          exact htakes

end Containers

/-! ### Bitmaps -/

/-- A 32-bit bitmap: the run marks when its cookie announces them, the containers, and the offset
header. -/
structure Bitmap where
  marks : Option (List Byte)
  containers : List Container
  offsets : List Byte

namespace Bitmap

def size (x : Bitmap) : ℕ := x.containers.length

def cookie (x : Bitmap) : ℕ :=
  match x.marks with
  | none => 12346
  | some _ => 12347 + (x.size - 1) * 65536

def sizeOrMarks (x : Bitmap) : List Byte :=
  match x.marks with
  | none => leBytes 4 x.size
  | some marks => marks

def marked (x : Bitmap) (i : ℕ) : Bool :=
  match x.marks with
  | none => false
  | some marks => bitAt marks i

def body (cs : List Container) (offsets : List Byte) : List Byte :=
  (cs.map Container.entry).flatMap Container.entryBytes ++
    (offsets ++ cs.flatMap fun c => c.payload.bytes)

def bytes (x : Bitmap) : List Byte :=
  leBytes 4 x.cookie ++ (x.sizeOrMarks ++ body x.containers x.offsets)

def BodyFits (cookie size : ℕ) (marked : ℕ → Bool) (x : List Container × List Byte) : Prop :=
  size ≤ 65536 ∧ x.1.length = size ∧ (∀ c ∈ x.1, c.Fits) ∧
    x.1.map (fun c => c.payload.isRun) = (List.range' 0 size).map marked ∧
      x.2.length = if cookie = 12346 ∨ cookie % 65536 = 12347 ∧ 4 ≤ size then 4 * size else 0

def MarksFit (x : Bitmap) : Prop :=
  ∀ marks, x.marks = some marks → 1 ≤ x.size ∧ marks.length = (x.size + 7) / 8

def Fits (x : Bitmap) : Prop :=
  x.MarksFit ∧ BodyFits x.cookie x.size x.marked (x.containers, x.offsets)

def positions (base : ℕ) (x : Bitmap) : List ℕ := x.containers.flatMap (Container.positions base)

end Bitmap

section Bitmaps

variable {mem : List Byte} {fin p p' : ℕ}

theorem reads_of_le (hfin : fin ≤ mem.length) {n : ℕ} (h : p + n ≤ fin) :
    ∃ bs, bs.length = n ∧ Reads mem fin bs p (p + n) := by
  obtain ⟨bs, -, hat, hlen⟩ := takeAt_ok (h.trans hfin)
  exact ⟨bs, hlen, hat, by rw [hlen], h⟩

theorem pfNeed_ok_iff (hp : p ≤ fin) (n : ℕ) : pfNeed fin p n = .ok () ↔ p + n ≤ fin := by
  unfold pfNeed
  split
  · simp only [reduceCtorEq, false_iff]
    omega
  · simp only [true_iff]
    omega

theorem pfNeed_ne_fault (n : ℕ) : pfNeed fin p n ≠ .error .fault := by
  unfold pfNeed
  split <;> simp

theorem pfSkipOffsets_ok_iff (hfin : fin ≤ mem.length) (hp : p ≤ fin) (cookie size : ℕ) :
    pfSkipOffsets fin cookie size p = .ok p' ↔ ∃ offsets : List Byte,
        offsets.length = (if cookie = 12346 ∨ cookie % 65536 = 12347 ∧
          4 ≤ size then 4 * size else 0) ∧
          Reads mem fin offsets p p' := by
  unfold pfSkipOffsets
  split
  · rw [bind_eq_ok]
    constructor
    · intro h
      obtain ⟨_, hneed, h⟩ := h
      cases h
      exact reads_of_le hfin ((pfNeed_ok_iff hp _).mp hneed)
    · intro h
      obtain ⟨offsets, hlen, hread⟩ := h
      have hpos := hread.2.1
      have hle := hread.le
      rw [hlen] at hpos
      exact ⟨(), (pfNeed_ok_iff hp _).mpr (by omega), by rw [hpos]; rfl⟩
  · constructor
    · intro h
      cases h
      exact ⟨[], rfl, (reads_nil hfin hp).mpr rfl⟩
    · intro h
      obtain ⟨offsets, hlen, hread⟩ := h
      obtain rfl := length_eq_zero_iff.mp hlen
      rw [(reads_nil hfin hp).mp hread]

theorem pfSkipOffsets_ne_fault (cookie size : ℕ) :
    pfSkipOffsets fin cookie size p ≠ .error .fault := by
  unfold pfSkipOffsets
  split
  · exact bind_ne_fault (pfNeed_ne_fault _) fun _ _ => by simp [pure, Except.pure]
  · simp

theorem pfEntries_ok_iff (hfin : fin ≤ mem.length) (hp : p ≤ fin) {n : ℕ} {es : List (ℕ × ℕ)} :
    pfEntries mem fin n p = .ok (es, p') ↔ es.length = n ∧ (∀ e ∈ es, Container.EntryFits e) ∧
        Reads mem fin (es.flatMap Container.entryBytes) p p' := by
  induction n generalizing p es with
  | zero =>
    constructor
    · intro h
      cases h
      exact ⟨rfl, by simp, (reads_nil hfin hp).mpr rfl⟩
    · intro h
      obtain ⟨hlen, -, hread⟩ := h
      obtain rfl := length_eq_zero_iff.mp hlen
      rw [(reads_nil hfin hp).mp hread]
      rfl
  | succ n ih =>
    rw [pfEntries]
    constructor
    · intro h
      obtain ⟨⟨key, q⟩, hkey, h⟩ := bind_eq_ok.mp h
      obtain ⟨hklt, hread⟩ := (pfLe_ok_iff hfin hp).mp hkey
      obtain ⟨⟨card, q'⟩, hcard, h⟩ := bind_eq_ok.mp h
      obtain ⟨hclt, hread'⟩ := (pfLe_ok_iff hfin hread.le).mp hcard
      obtain ⟨⟨rest, q''⟩, hrest, h⟩ := bind_eq_ok.mp h
      cases h
      obtain ⟨hlen, hfits, hreads⟩ := (ih hread'.le).mp hrest
      refine ⟨by simp [hlen], ?_, ?_⟩
      · simp only [forall_mem_cons]
        exact ⟨⟨hklt, by simp, by dsimp only; omega⟩, hfits⟩
      · refine reads_append.mp ⟨q', reads_append.mp ⟨q, hread, ?_⟩, hreads⟩
        exact hread'
    · intro h
      obtain ⟨hlen, hfits, hread⟩ := h
      obtain ⟨⟨key, card⟩, es, rfl⟩ := exists_cons_of_length_eq_add_one hlen
      obtain ⟨q', hentry, hreads⟩ := reads_append.mpr hread
      obtain ⟨q, hkey, hcard⟩ := reads_append.mpr hentry
      obtain ⟨hklt, hpos, hle⟩ := hfits (key, card) mem_cons_self
      refine bind_eq_ok.mpr ⟨_, (pfLe_ok_iff hfin hp).mpr ⟨hklt, hkey⟩, ?_⟩
      refine bind_eq_ok.mpr ⟨_, (pfLe_ok_iff hfin hkey.le).mpr ⟨by norm_num; omega, hcard⟩, ?_⟩
      have hrest := (ih hcard.le).mpr ⟨by simpa using hlen, fun e he =>
        hfits e (mem_cons_of_mem _ he), hreads⟩
      have hone : card - 1 + 1 = card := by omega
      refine bind_eq_ok.mpr ⟨_, hrest, ?_⟩
      rw [hone]
      rfl

theorem pfEntries_ne_fault (hfin : fin ≤ mem.length) (hp : p ≤ fin) (n : ℕ) :
    pfEntries mem fin n p ≠ .error .fault := by
  induction n generalizing p with
  | zero => simp [pfEntries]
  | succ n ih =>
    refine bind_ne_fault (pfLe_ne_fault hfin hp) fun key hkey => ?_
    have hread := ((pfLe_ok_iff hfin hp).mp hkey).2
    refine bind_ne_fault (pfLe_ne_fault hfin hread.le) fun card hcard => ?_
    have hread' := ((pfLe_ok_iff hfin hread.le).mp hcard).2
    exact bind_ne_fault (ih hread'.le) fun rest _ => by simp [pure, Except.pure]

variable {runbits : Option ℕ}

theorem pfContainers_cons {i : ℕ} {isRun : Bool}
    (h : pfIsRun mem runbits i = .ok isRun) (base key card : ℕ) (es : List (ℕ × ℕ))
    (s : ℕ × List ℕ) :
    pfContainers mem fin base runbits ((key, card) :: es) i s =
      pfContainer mem fin (base ||| key <<< 16) card isRun s >>=
        pfContainers mem fin base runbits es (i + 1) := by
  rw [pfContainers, h]
  rfl

theorem decodes_pfContainers (hfin : fin ≤ mem.length) (base : ℕ)
    {marked : ℕ → Bool} (es : List (ℕ × ℕ)) (i : ℕ)
    (hmark : ∀ j, i ≤ j → j < i + es.length → pfIsRun mem runbits j = .ok (marked j)) :
    Decodes mem fin puffinMaxPositions PuffinError.fault
      (fun cs : List Container => cs.map Container.entry = es ∧ (∀ c ∈ cs, c.payload.Fits c.card) ∧
        cs.map (fun c => c.payload.isRun) = (List.range' i es.length).map marked)
      (fun cs => cs.flatMap fun c => c.payload.bytes)
      (fun cs => cs.flatMap (Container.positions base))
        (pfContainers mem fin base runbits es i) := by
  induction es generalizing i with
  | nil =>
    intro s hs
    refine ⟨by simp [pfContainers], fun s' => ?_⟩
    constructor
    · intro h
      cases h
      exact ⟨[], by simp, (takes_nil hfin hs).mpr rfl⟩
    · intro h
      obtain ⟨cs, ⟨hcs, -⟩, htakes⟩ := h
      obtain rfl := map_eq_nil_iff.mp hcs
      rw [(takes_nil hfin hs).mp htakes]
      rfl
  | cons e es ih =>
    obtain ⟨key, card⟩ := e
    intro s hs
    have hthis := hmark i le_rfl (by simp)
    have hrest := ih (i + 1) fun j hj hlt => hmark j (by omega) (by simp; omega)
    obtain ⟨hfault, hstep⟩ := decodes_pfContainer hfin (base ||| key <<< 16) card (marked i) s hs
    have hnext : ∀ t, pfContainer mem fin (base ||| key <<< 16) card (marked i) s = .ok t →
        Inside fin puffinMaxPositions t := by
      intro t ht
      obtain ⟨x, -, htakes⟩ := (hstep t).mp ht
      exact htakes.inside
    constructor
    · rw [pfContainers_cons hthis]
      exact bind_ne_fault hfault fun t ht => (hrest t (hnext t ht)).1
    · intro s'
      rw [pfContainers_cons hthis]
      constructor
      · intro h
        obtain ⟨t, ht, h⟩ := bind_eq_ok.mp h
        obtain ⟨x, ⟨hrun, hfits⟩, htakes⟩ := (hstep t).mp ht
        obtain ⟨cs, ⟨hmap, hall, hruns⟩, htakes'⟩ := ((hrest t (hnext t ht)).2 s').mp h
        refine ⟨⟨key, card, x⟩ :: cs, ⟨?_, ?_, ?_⟩, takes_append.mp ⟨t, htakes, htakes'⟩⟩
        · rw [map_cons, hmap]
          rfl
        · simpa using ⟨hfits, hall⟩
        · rw [map_cons, hruns, length_cons, range'_succ, map_cons, hrun]
      · intro h
        obtain ⟨cs, ⟨hmap, hall, hruns⟩, htakes⟩ := h
        obtain ⟨c, cs, rfl⟩ := exists_cons_of_ne_nil
          (show cs ≠ [] by intro hnil; simp [hnil] at hmap)
        obtain ⟨hc, hcs⟩ := cons_eq_cons.mp hmap
        obtain ⟨hkey, hcard⟩ := Prod.mk.inj hc
        rw [map_cons, length_cons, range'_succ, map_cons, cons_eq_cons] at hruns
        obtain ⟨t, hfirst, hlast⟩ := takes_append.mpr htakes
        refine bind_eq_ok.mpr ⟨t, (hstep t).mpr ⟨c.payload, ⟨hruns.1, ?_⟩, ?_⟩, ?_⟩
        · rw [← hcard]
          exact hall c mem_cons_self
        · rw [← hkey]
          exact hfirst
        · have ht : Inside fin puffinMaxPositions t := hfirst.inside
          refine ((hrest t ht).2 s').mpr ⟨cs, ⟨hcs, ?_, hruns.2⟩, hlast⟩
          exact fun d hd => hall d (mem_cons_of_mem _ hd)

theorem decodes_pfSized (hfin : fin ≤ mem.length) (base cookie size : ℕ)
    {marked : ℕ → Bool} (hmark : ∀ j < size, pfIsRun mem runbits j = .ok (marked j)) :
    Decodes mem fin puffinMaxPositions PuffinError.fault (Bitmap.BodyFits cookie size marked)
      (fun x => Bitmap.body x.1 x.2) (fun x => x.1.flatMap (Container.positions base))
      (pfSized mem fin base cookie size runbits) := by
  intro s hs
  unfold pfSized
  by_cases hsize : 65536 < size
  · simp only [hsize, if_true]
    refine ⟨by simp, fun s' => ?_⟩
    constructor
    · intro h
      cases h
    · intro h
      obtain ⟨x, hfits, -⟩ := h
      exact absurd hfits.1 (by omega)
  · simp only [hsize, if_false]
    have hcs : ∀ es : List (ℕ × ℕ), es.length = size → ∀ t, Inside fin puffinMaxPositions t → _ :=
      fun es hlen t ht => decodes_pfContainers hfin base es 0
        (fun j _ hj => hmark j (by omega)) t ht
    constructor
    · refine bind_ne_fault (pfEntries_ne_fault hfin hs.1 size) fun es hes => ?_
      obtain ⟨hlen, -, hread⟩ := (pfEntries_ok_iff hfin hs.1).mp hes
      refine bind_ne_fault (pfSkipOffsets_ne_fault cookie size) fun q hq => ?_
      obtain ⟨offsets, -, hread'⟩ := (pfSkipOffsets_ok_iff hfin hread.le cookie size).mp hq
      exact (hcs es.1 hlen (q, s.2) ⟨hread'.le, hs.2⟩).1
    · intro s'
      constructor
      · intro h
        obtain ⟨⟨es, q⟩, hes, h⟩ := bind_eq_ok.mp h
        obtain ⟨hlen, hfits, hread⟩ := (pfEntries_ok_iff hfin hs.1).mp hes
        obtain ⟨q', hq, h⟩ := bind_eq_ok.mp h
        obtain ⟨offsets, hoff, hread'⟩ := (pfSkipOffsets_ok_iff hfin hread.le cookie size).mp hq
        obtain ⟨cs, ⟨hmap, hall, hruns⟩, hbody, hvals⟩ :=
          ((hcs es hlen (q', s.2) ⟨hread'.le, hs.2⟩).2 s').mp h
        have hcslen : cs.length = size := by rw [← hlen, ← hmap, length_map]
        subst hmap
        refine ⟨(cs, offsets), ⟨by omega, hcslen, ?_, hlen ▸ hruns, hoff⟩, ?_, hvals⟩
        · exact fun c hc => ⟨hfits _ (mem_map_of_mem hc), hall c hc⟩
        · exact reads_append.mp ⟨q, hread, reads_append.mp ⟨q', hread', hbody⟩⟩
      · intro h
        obtain ⟨⟨cs, offsets⟩, ⟨-, hlen, hall, hruns, hoff⟩, hread, hvals⟩ := h
        obtain ⟨q, hes, hrest⟩ := reads_append.mpr hread
        obtain ⟨q', hq, hbody⟩ := reads_append.mpr hrest
        have hmaplen : (cs.map Container.entry).length = size := by rw [length_map, hlen]
        have hentries := (pfEntries_ok_iff hfin hs.1).mpr ⟨hmaplen, by
          intro e he
          obtain ⟨c, hc, rfl⟩ := mem_map.mp he
          exact (hall c hc).1, hes⟩
        refine bind_eq_ok.mpr ⟨_, hentries, bind_eq_ok.mpr ⟨q', ?_, ?_⟩⟩
        · exact (pfSkipOffsets_ok_iff hfin hes.le cookie size).mpr ⟨offsets, hoff, hq⟩
        · refine ((hcs _ hmaplen (q', s.2) ⟨hq.le, hs.2⟩).2 s').mpr
            ⟨cs, ⟨rfl, ?_, ?_⟩, hbody, hvals⟩
          · exact fun c hc => (hall c hc).2
          · rw [hmaplen]
            exact hruns

theorem pfIsRun_of_reads {marks : List Byte} {i : ℕ} (h : Reads mem fin marks p p')
    (hi : i < 8 * marks.length) : pfIsRun mem (some p) i = .ok (bitAt marks i) := by
  obtain ⟨pre, post, hmem, hpre⟩ := h.1
  have hlt : i / 8 < marks.length := by omega
  have hat : At mem (p + i / 8) [marks[i / 8]] := by
    refine ⟨pre ++ marks.take (i / 8), marks.drop (i / 8 + 1) ++ post, ?_, by simp [hpre]; omega⟩
    have hsplit := take_append_drop (i / 8) marks
    rw [drop_eq_getElem_cons hlt] at hsplit
    rw [hmem]
    conv_lhs => rw [← hsplit]
    simp only [append_assoc, cons_append, nil_append]
  have htake := takeAt_of_at hat
  simp only [length_singleton] at htake
  simp [pfIsRun, pfFetch, htake, bind, Except.bind, pure, Except.pure, bitAt, leNat_cons,
    getElem?_eq_getElem hlt, BitVec.getLsbD]

theorem pfCookie_ok_iff (hfin : fin ≤ mem.length) (hp : p ≤ fin) {cookie size : ℕ} :
    pfCookie mem fin cookie p = .ok (size, runbits, p') ↔
      cookie = 12346 ∧ runbits = none ∧ size < 256 ^ 4 ∧ Reads mem fin (leBytes 4 size) p p' ∨
      cookie % 65536 = 12347 ∧ size = cookie / 65536 + 1 ∧ runbits = some p ∧
        ∃ marks : List Byte, marks.length = (size + 7) / 8 ∧ Reads mem fin marks p p' := by
  unfold pfCookie
  by_cases h1 : cookie = 12346
  · have h2 : ¬ cookie % 65536 = 12347 := by omega
    simp only [h1, if_true, true_and, show ¬ 12346 % 65536 = 12347 by omega, false_and, or_false]
    rw [bind_eq_ok]
    constructor
    · intro h
      obtain ⟨⟨n, q⟩, hn, h⟩ := h
      cases h
      exact ⟨rfl, (pfLe_ok_iff hfin hp).mp hn⟩
    · intro h
      obtain ⟨rfl, hlt, hread⟩ := h
      exact ⟨_, (pfLe_ok_iff hfin hp).mpr ⟨hlt, hread⟩, rfl⟩
  · by_cases h2 : cookie % 65536 = 12347
    · simp only [h1, h2, if_true, if_false, false_and, true_and, false_or]
      rw [bind_eq_ok]
      constructor
      · intro h
        obtain ⟨_, hneed, h⟩ := h
        cases h
        exact ⟨rfl, rfl, reads_of_le hfin ((pfNeed_ok_iff hp _).mp hneed)⟩
      · intro h
        obtain ⟨rfl, rfl, marks, hlen, hread⟩ := h
        have hpos := hread.2.1
        have hle := hread.le
        rw [hlen] at hpos
        refine ⟨(), (pfNeed_ok_iff hp _).mpr (by omega), ?_⟩
        rw [hpos]
        rfl
    · simp [h1, h2]

theorem pfCookie_ne_fault (hfin : fin ≤ mem.length) (hp : p ≤ fin) (cookie : ℕ) :
    pfCookie mem fin cookie p ≠ .error .fault := by
  unfold pfCookie
  split
  · exact bind_ne_fault (pfLe_ne_fault hfin hp) fun _ _ => by simp [pure, Except.pure]
  · split
    · exact bind_ne_fault (pfNeed_ne_fault _) fun _ _ => by simp [pure, Except.pure]
    · simp

/-- What stands behind a cookie, and what the marks say of each container. -/
theorem pfCookie_marks {cookie size : ℕ} (hfin : fin ≤ mem.length) (hp : p ≤ fin)
    (h : pfCookie mem fin cookie p = .ok (size, runbits, p')) :
    ∃ marks : Option (List Byte), p' ≤ fin ∧ (∀ cs offsets, cs.length = size →
        (⟨marks, cs, offsets⟩ : Bitmap).cookie = cookie ∧ (⟨marks, cs, offsets⟩ : Bitmap).MarksFit ∧
          Reads mem fin (⟨marks, cs, offsets⟩ : Bitmap).sizeOrMarks p p') ∧
      ∀ cs offsets, ∀ j < size,
        pfIsRun mem runbits j = .ok ((⟨marks, cs, offsets⟩ : Bitmap).marked j) := by
  obtain ⟨rfl, rfl, hlt, hread⟩ | ⟨hmod, rfl, rfl, marks, hlen, hread⟩ :=
    (pfCookie_ok_iff hfin hp).mp h
  · refine ⟨none, hread.le, fun cs offsets hcs => ?_, fun _ _ _ _ => rfl⟩
    subst hcs
    exact ⟨rfl, nofun, hread⟩
  · refine ⟨some marks, hread.le, fun cs offsets hcs => ⟨?_, ?_, hread⟩, fun _ _ j hj => ?_⟩
    · show 12347 + (cs.length - 1) * 65536 = cookie
      omega
    · intro m hm
      cases hm
      exact ⟨by show 1 ≤ cs.length; omega, by show _ = (cs.length + 7) / 8; omega⟩
    · exact pfIsRun_of_reads hread (by omega)

theorem decodes_pfRoaring32 (hfin : fin ≤ mem.length) (base : ℕ) :
    Decodes mem fin puffinMaxPositions PuffinError.fault Bitmap.Fits Bitmap.bytes
      (Bitmap.positions base) (pfRoaring32 mem fin base) := by
  intro s hs
  constructor
  · refine bind_ne_fault (pfLe_ne_fault hfin hs.1) fun cookie hcookie => ?_
    have hread := ((pfLe_ok_iff hfin hs.1).mp hcookie).2
    refine bind_ne_fault (pfCookie_ne_fault hfin hread.le cookie.1) fun x hx => ?_
    obtain ⟨size, runbits, q⟩ := x
    obtain ⟨marks, hq, -, hmark⟩ := pfCookie_marks hfin hread.le hx
    exact (decodes_pfSized hfin base cookie.1 size (hmark [] []) (q, s.2) ⟨hq, hs.2⟩).1
  · intro s'
    constructor
    · intro h
      obtain ⟨⟨cookie, q⟩, hcookie, h⟩ := bind_eq_ok.mp h
      obtain ⟨-, hread⟩ := (pfLe_ok_iff hfin hs.1).mp hcookie
      obtain ⟨⟨size, runbits, q'⟩, hx, h⟩ := bind_eq_ok.mp h
      obtain ⟨marks, hq', hhead, hmark⟩ := pfCookie_marks hfin hread.le hx
      obtain ⟨⟨cs, offsets⟩, hfits, hbody, hvals⟩ :=
        ((decodes_pfSized hfin base cookie size (hmark [] []) (q', s.2) ⟨hq', hs.2⟩).2 s').mp h
      obtain ⟨hck, hmf, hsm⟩ := hhead cs offsets hfits.2.1
      have hlen : cs.length = size := hfits.2.1
      refine ⟨⟨marks, cs, offsets⟩, ⟨hmf, ?_⟩, ?_, hvals⟩
      · rw [hck]
        subst hlen
        exact hfits
      · rw [Bitmap.bytes, hck]
        exact reads_append.mp ⟨q, hread, reads_append.mp ⟨q', hsm, hbody⟩⟩
    · intro h
      obtain ⟨x, ⟨hmf, hfits⟩, hread, hvals⟩ := h
      obtain ⟨q, hcookie, hrest⟩ := reads_append.mpr hread
      obtain ⟨q', hhead, hbody⟩ := reads_append.mpr hrest
      have hsize : x.size ≤ 65536 := hfits.1
      have hck : x.cookie < 256 ^ 4 := by
        unfold Bitmap.cookie
        split <;> omega
      refine bind_eq_ok.mpr ⟨_, (pfLe_ok_iff hfin hs.1).mpr ⟨hck, hcookie⟩, ?_⟩
      have hx : ∃ runbits, pfCookie mem fin x.cookie q = .ok (x.size, runbits, q') ∧
          ∀ j < x.size, pfIsRun mem runbits j = .ok (x.marked j) := by
        obtain ⟨marks, cs, offsets⟩ := x
        cases marks with
        | none =>
          refine ⟨none, ?_, fun _ _ => rfl⟩
          exact (pfCookie_ok_iff hfin hcookie.le).mpr (.inl ⟨rfl, rfl, by omega, hhead⟩)
        | some marks =>
          obtain ⟨hpos, hlen⟩ := hmf marks rfl
          have hmod : (12347 + (cs.length - 1) * 65536) % 65536 = 12347 := by omega
          have hdiv : cs.length = (12347 + (cs.length - 1) * 65536) / 65536 + 1 := by
            have hpos' : 1 ≤ cs.length := hpos
            omega
          have hlen' : marks.length = (cs.length + 7) / 8 := hlen
          refine ⟨some q, (pfCookie_ok_iff hfin hcookie.le).mpr
            (.inr ⟨hmod, hdiv, rfl, marks, hlen, hhead⟩), ?_⟩
          intro j hj
          have hj' : j < cs.length := hj
          exact pfIsRun_of_reads hhead (by omega)
      obtain ⟨runbits, hx, hmark⟩ := hx
      refine bind_eq_ok.mpr ⟨_, hx, ?_⟩
      exact ((decodes_pfSized hfin base x.cookie x.size hmark (q', s.2) ⟨hhead.le, hs.2⟩).2 s').mpr
        ⟨(x.containers, x.offsets), hfits, hbody, hvals⟩

end Bitmaps

/-! ### The 64-bit bitmap -/

/-- The values with one high half. -/
structure RoaringBucket where
  key : ℕ
  bitmap : Bitmap

namespace RoaringBucket

def bytes (x : RoaringBucket) : List Byte := leBytes 4 x.key ++ x.bitmap.bytes

def positions (x : RoaringBucket) : List ℕ := x.bitmap.positions (x.key <<< 32)

def Fits (x : RoaringBucket) : Prop := x.key < 256 ^ 4 ∧ x.bitmap.Fits

end RoaringBucket

def vectorBytes (xs : List RoaringBucket) : List Byte :=
    leBytes 8 xs.length ++ xs.flatMap RoaringBucket.bytes

def vectorPositions (xs : List RoaringBucket) : List ℕ := xs.flatMap RoaringBucket.positions

/-- Buckets with ascending keys, all above the previous one. -/
def Ascend (prev : Option ℕ) (xs : List RoaringBucket) : Prop :=
  (∀ k ∈ prev, ∀ x ∈ xs, k < x.key) ∧ xs.Pairwise fun x y => x.key < y.key

def VectorFits (xs : List RoaringBucket) : Prop :=
  xs.length < 2 ^ 32 ∧ (∀ x ∈ xs, x.Fits) ∧ Ascend none xs

section Vector

theorem ascend_cons {prev : Option ℕ} {x : RoaringBucket} {xs : List RoaringBucket} :
    Ascend prev (x :: xs) ↔ (∀ k ∈ prev, k < x.key) ∧ Ascend (some x.key) xs := by
  constructor
  · intro h
    obtain ⟨hprev, hpair⟩ := h
    obtain ⟨hx, hxs⟩ := pairwise_cons.mp hpair
    exact ⟨fun k hk => hprev k hk x mem_cons_self, by simpa using hx, hxs⟩
  · intro h
    obtain ⟨hprev, hx, hxs⟩ := h
    have hx' : ∀ y ∈ xs, x.key < y.key := by simpa using hx
    refine ⟨fun k hk y hy => ?_, pairwise_cons.mpr ⟨hx', hxs⟩⟩
    obtain rfl | hy := mem_cons.mp hy
    · exact hprev k hk
    · exact (hprev k hk).trans (hx' y hy)

theorem decodes_pfBuckets {mem : List Byte} {fin : ℕ} (hfin : fin ≤ mem.length) (n b prevkey : ℕ) :
    Decodes mem fin puffinMaxPositions PuffinError.fault
      (fun xs : List RoaringBucket => xs.length = n ∧ (∀ x ∈ xs, x.Fits) ∧
        Ascend (if 0 < b then some prevkey else none) xs)
      (fun xs => xs.flatMap RoaringBucket.bytes) vectorPositions
        (pfBuckets mem fin n b prevkey) := by
  induction n generalizing b prevkey with
  | zero =>
    intro s hs
    refine ⟨by simp [pfBuckets], fun s' => ?_⟩
    constructor
    · intro h
      cases h
      exact ⟨[], by simp [Ascend], (takes_nil hfin hs).mpr rfl⟩
    · intro h
      obtain ⟨xs, ⟨hlen, -⟩, htakes⟩ := h
      obtain rfl := length_eq_zero_iff.mp hlen
      rw [(takes_nil hfin hs).mp htakes]
      rfl
  | succ n ih =>
    intro s hs
    rw [pfBuckets]
    -- the first bucket may have any key, the others a greater one than the last
    have hprev : ∀ key, (∀ k ∈ (if 0 < b then some prevkey else none), k < key) ↔
        ¬ (0 < b ∧ key ≤ prevkey) := by
      intro key
      split <;> simp [*]
    have hpos : (0 < b + 1) = True := by simp
    constructor
    · refine bind_ne_fault (pfLe_ne_fault hfin hs.1) fun key hkey => ?_
      have hread := ((pfLe_ok_iff hfin hs.1).mp hkey).2
      dsimp only
      split
      · simp
      · obtain ⟨hfault, hstep⟩ := decodes_pfRoaring32 hfin (key.1 <<< 32) (key.2, s.2)
          ⟨hread.le, hs.2⟩
        refine bind_ne_fault hfault fun t ht => ?_
        obtain ⟨x, -, htakes⟩ := (hstep t).mp ht
        exact (ih (b + 1) key.1 t htakes.inside).1
    · intro s'
      constructor
      · intro h
        obtain ⟨⟨key, q⟩, hkey, h⟩ := bind_eq_ok.mp h
        obtain ⟨hlt, hread⟩ := (pfLe_ok_iff hfin hs.1).mp hkey
        dsimp only at h
        split_ifs at h with hasc
        obtain ⟨t, ht, h⟩ := bind_eq_ok.mp h
        obtain ⟨x, hx, htakes⟩ := ((decodes_pfRoaring32 hfin _ (q, s.2) ⟨hread.le, hs.2⟩).2 t).mp ht
        obtain ⟨xs, ⟨hlen, hall, hasc'⟩, htakes'⟩ := ((ih (b + 1) key t htakes.inside).2 s').mp h
        refine ⟨⟨key, x⟩ :: xs, ⟨by simp [hlen], ?_, ?_⟩, ?_⟩
        · simpa using ⟨⟨hlt, hx⟩, hall⟩
        · rw [ascend_cons]
          exact ⟨(hprev key).mpr hasc, hasc'⟩
        · refine takes_append.mp ⟨t, ⟨reads_append.mp ⟨q, hread, htakes.1⟩, htakes.2⟩, htakes'⟩
      · intro h
        obtain ⟨xs, ⟨hlen, hall, hasc⟩, htakes⟩ := h
        obtain ⟨x, xs, rfl⟩ := exists_cons_of_length_eq_add_one hlen
        obtain ⟨t, ⟨hread, hvals⟩, hrest⟩ := takes_append.mpr htakes
        obtain ⟨q, hkey, hbitmap⟩ := reads_append.mpr hread
        obtain ⟨hlt, hx⟩ := hall x mem_cons_self
        rw [ascend_cons, hprev] at hasc
        refine bind_eq_ok.mpr ⟨_, (pfLe_ok_iff hfin hs.1).mpr ⟨hlt, hkey⟩, ?_⟩
        dsimp only
        rw [if_neg hasc.1]
        have hstep := (decodes_pfRoaring32 hfin (x.key <<< 32) (q, s.2) ⟨hkey.le, hs.2⟩).2 t
        refine bind_eq_ok.mpr ⟨t, hstep.mpr ⟨x.bitmap, hx, hbitmap, hvals⟩, ?_⟩
        have ht : Inside fin puffinMaxPositions t := ⟨hbitmap.le, hvals.2⟩
        refine ((ih (b + 1) x.key t ht).2 s').mpr ⟨xs, ⟨by simpa using hlen, ?_, ?_⟩, hrest⟩
        · exact fun y hy => hall y (mem_cons_of_mem _ hy)
        · simp only [hpos, if_true]
          exact hasc.2

/-- **The decoder accepts exactly the encodings**, when they end where the vector does and name no
more positions than the limit. -/
theorem pfVector_ok_iff {mem : List Byte} {fin p : ℕ} (hfin : fin ≤ mem.length) (hp : p ≤ fin)
    (ps : List ℕ) :
    pfVector mem fin p = .ok ps ↔
      ∃ xs, VectorFits xs ∧ Reads mem fin (vectorBytes xs) p fin ∧ ps = vectorPositions xs ∧
        ps.length ≤ puffinMaxPositions := by
  constructor
  · intro h
    obtain ⟨⟨n, q⟩, hn, h⟩ := bind_eq_ok.mp h
    obtain ⟨-, hread⟩ := (pfU64_ok_iff hfin hp).mp hn
    dsimp only at h
    split_ifs at h with hle
    obtain ⟨⟨q', out⟩, hout, h⟩ := bind_eq_ok.mp h
    split_ifs at h with hend
    cases h
    have hs : Inside fin puffinMaxPositions (q, ([] : List ℕ)) := ⟨hread.le, by simp⟩
    obtain ⟨xs, ⟨hlen, hall, hasc⟩, hrest, hvals, hcap⟩ :=
      ((decodes_pfBuckets hfin n 0 0 _ hs).2 _).mp hout
    subst hlen
    rw [hend] at hrest
    exact ⟨xs, ⟨by omega, hall, hasc⟩, reads_append.mp ⟨q, hread, hrest⟩, by
      simpa using hvals, hcap⟩
  · intro h
    obtain ⟨xs, ⟨hlen, hall, hasc⟩, hread, rfl, hcap⟩ := h
    obtain ⟨q, hn, hrest⟩ := reads_append.mpr hread
    refine bind_eq_ok.mpr ⟨_, (pfU64_ok_iff hfin hp).mpr ⟨by omega, hn⟩, ?_⟩
    dsimp only
    rw [if_neg (by omega)]
    have hs : Inside fin puffinMaxPositions (q, ([] : List ℕ)) := ⟨hn.le, by simp⟩
    have hout := ((decodes_pfBuckets hfin xs.length 0 0 _ hs).2 (fin, vectorPositions xs)).mpr
      ⟨xs, ⟨rfl, hall, hasc⟩, hrest, by simp, hcap⟩
    refine bind_eq_ok.mpr ⟨_, hout, ?_⟩
    rw [if_pos rfl]

theorem pfVector_ne_fault {mem : List Byte} {fin p : ℕ} (hfin : fin ≤ mem.length) (hp : p ≤ fin) :
    pfVector mem fin p ≠ .error .fault := by
  refine bind_ne_fault (pfU64_ne_fault hfin hp) fun n hn => ?_
  have hread := ((pfU64_ok_iff hfin hp).mp hn).2
  dsimp only
  split
  · simp
  · refine bind_ne_fault (decodes_pfBuckets hfin n.1 0 0 (n.2, []) ⟨hread.le, by simp⟩).1 fun t _ =>
      ?_
    split <;> simp

end Vector

/-! ### The positions -/

theorem Payload.Fits.lt {x : Payload} {card v : ℕ} (h : x.Fits card) (hv : v ∈ x.values) :
    v < 65536 := by
  cases x with
  | array vals => exact h.2.2 v hv
  | bitset bits => exact mem_range.mp (mem_filter.mp hv).1
  | run runs =>
    obtain ⟨r, hr, hv⟩ := mem_flatMap.mp hv
    have hle := (h.2 r hr).2
    have hlt := (mem_range'_1.mp hv).2
    omega

theorem or_position {key ckey v : ℕ} (hckey : ckey < 65536) (hv : v < 65536) :
    key <<< 32 ||| ckey <<< 16 ||| v = (key * 65536 + ckey) * 65536 + v := by
  have hhigh : key <<< 32 ||| ckey <<< 16 = 2 ^ 16 * (key * 65536 + ckey) := by
    rw [Nat.shiftLeft_eq, Nat.shiftLeft_eq, Nat.mul_comm key, Nat.mul_comm ckey,
      ← Nat.two_pow_add_eq_or_of_lt (by omega)]
    omega
  rw [hhigh, ← Nat.two_pow_add_eq_or_of_lt (by omega)]
  omega

/-- **A container's positions lie in its range of 65536 values.** -/
theorem Container.Fits.div {c : Container} (h : c.Fits) {key p : ℕ}
    (hp : p ∈ c.positions (key <<< 32)) : p / 65536 = key * 65536 + c.key := by
  obtain ⟨v, hv, rfl⟩ := mem_map.mp hp
  have hlt := h.2.lt hv
  have hckey : c.key < 65536 := h.1.1
  rw [or_position hckey hlt]
  omega

/-- The values in ascending order, and counted as declared. -/
def Container.Legal (c : Container) : Prop :=
  c.payload.values.Pairwise (· < ·) ∧ c.payload.values.length = c.card

def Bitmap.Legal (x : Bitmap) : Prop :=
  (∀ c ∈ x.containers, c.Legal) ∧ x.containers.Pairwise fun c d => c.key < d.key

/-- The bytes are a portable serialization of the set. -/
def RoaringOf (positions : Finset ℕ) (bytes : List Byte) : Prop :=
  ∃ xs, VectorFits xs ∧ (∀ x ∈ xs, x.bitmap.Legal) ∧ bytes = vectorBytes xs ∧
    ∀ p, p ∈ positions ↔ p ∈ vectorPositions xs

theorem Container.Legal.pairwise {c : Container} (h : c.Legal) (hfits : c.Fits) (key : ℕ) :
    (c.positions (key <<< 32)).Pairwise (· < ·) := by
  have hckey : c.key < 65536 := hfits.1.1
  refine pairwise_map.mpr (h.1.imp_of_mem fun hv hw hlt => ?_)
  rw [or_position hckey (hfits.2.lt hv), or_position hckey (hfits.2.lt hw)]
  omega

theorem Bitmap.Legal.pairwise {x : Bitmap} (h : x.Legal) (hfits : x.Fits) (key : ℕ) :
    (x.positions (key <<< 32)).Pairwise (· < ·) := by
  have hall : ∀ c ∈ x.containers, c.Fits := hfits.2.2.2.1
  refine pairwise_flatMap.mpr ⟨fun c hc => (h.1 c hc).pairwise (hall c hc) key, ?_⟩
  refine h.2.imp_of_mem fun hc hd hlt p hp q hq => ?_
  have hpdiv := (hall _ hc).div hp
  have hqdiv := (hall _ hd).div hq
  omega

theorem RoaringBucket.Fits.div {x : RoaringBucket} (h : x.Fits) {p : ℕ} (hp : p ∈ x.positions) :
    p / 2 ^ 32 = x.key := by
  have hall : ∀ c ∈ x.bitmap.containers, c.Fits := h.2.2.2.2.1
  obtain ⟨c, hc, hp⟩ := mem_flatMap.mp hp
  have hdiv := (hall c hc).div hp
  have hckey : c.key < 65536 := (hall c hc).1.1
  omega

theorem vectorPositions_pairwise {xs : List RoaringBucket} (hfits : VectorFits xs)
    (hlegal : ∀ x ∈ xs, x.bitmap.Legal) : (vectorPositions xs).Pairwise (· < ·) := by
  obtain ⟨-, hall, -, hasc⟩ := hfits
  refine pairwise_flatMap.mpr ⟨fun x hx => (hlegal x hx).pairwise (hall x hx).2 x.key, ?_⟩
  refine hasc.imp_of_mem fun hx hy hlt p hp q hq => ?_
  have hpdiv := (hall _ hx).div hp
  have hqdiv := (hall _ hy).div hq
  omega

/-- The positions of a serialization are the set in ascending order. -/
theorem RoaringOf.sort_eq {positions : Finset ℕ} {bytes : List Byte}
    (h : RoaringOf positions bytes) :
    ∃ xs, VectorFits xs ∧ bytes = vectorBytes xs ∧ vectorPositions xs = positions.sort (· ≤ ·) := by
  obtain ⟨xs, hfits, hlegal, hbytes, hmem⟩ := h
  have hpair := vectorPositions_pairwise hfits hlegal
  refine ⟨xs, hfits, hbytes, ?_⟩
  have hset : positions = (vectorPositions xs).toFinset := by
    ext p
    rw [hmem, mem_toFinset]
  have hnodup : (vectorPositions xs).Nodup := hpair.imp ne_of_lt
  rw [hset]
  exact ((toFinset_sort (· ≤ ·) hnodup).mpr (hpair.imp le_of_lt)).symm

end PgColumnar.Iceberg
