import Mathlib.Tactic.Positivity
import PgColumnar.Encoding.Fixed
import PgColumnar.Lib.Probe

/-!
# FSST: a shared symbol table for varlena streams

A table of at most 255 symbols of one to eight bytes is trained once per chunk; a
vector is encoded by greedy longest match, one code byte per symbol and an escape
byte in front of a literal the table cannot cover.  The decoder stores every
symbol as one eight-byte write and advances by its length.

## Main definitions

* `buildFsstTable`, `fsstSerialize` — the table, and its bytes.
* `encodeFsstShared`, `decodeFsstShared` — the codec; `fsstDecodeRef` decodes symbol by symbol.

## Main results

* `fsstLoop_spec` — the codes stand for the bytes read.
* `fsst_roundTrip` — the round trip, and the decoder's writes.
-/

namespace PgColumnar
namespace Encoding

open Bytes Probe List Nat

/-- `FSST_MAX_SYMBOLS` and `FSST_ESCAPE`. -/
def fsstMaxSymbols : ℕ := 255
def fsstEscape : Byte := 255

/-- `FSST_MAX_SYMLEN`. -/
def fsstMaxSymlen : ℕ := 8

/-- `FSST_MIN_RAWLEN`. -/
def fsstMinRawlen : ℕ := 64

/-- One symbol: packed bytes, low byte first, and its length. -/
structure FsstSym where
  val : Word
  len : ℕ
  len_pos : 1 ≤ len
  len_le : len ≤ fsstMaxSymlen
  val_lt : val.toNat < 256 ^ len

/-- The bytes of a symbol. -/
def FsstSym.bytes (s : FsstSym) : List Byte := storeUint s.val s.len

theorem toNat_loadUint_take_lt {bs : List Byte} {L : ℕ} (hL : L ≤ 8) :
    (loadUint (bs.take L)).toNat < 256 ^ L := by
  have hlen : (bs.take L).length ≤ L := length_take_le L bs
  rw [toNat_loadUint (hlen.trans hL)]
  exact (leNat_lt _).trans_le (Nat.pow_le_pow_right (by norm_num) hlen)

/-- The symbol of the first `L` bytes at a position. -/
def FsstSym.ofBytes (bs : List Byte) (L : ℕ) (h1 : 1 ≤ L) (h8 : L ≤ fsstMaxSymlen) : FsstSym :=
  ⟨loadUint (bs.take L), L, h1, h8, toNat_loadUint_take_lt h8⟩

theorem toNat_cat_lt {a b : Word} {k l : ℕ} (ha : a.toNat < 256 ^ k) (hb : b.toNat < 256 ^ l)
    (hkl : k + l ≤ 8) : (a ||| b <<< (k * 8)).toNat < 256 ^ (k + l) := by
  have hb' : b.toNat <<< (k * 8) < 256 ^ (k + l) := by
    rw [shiftLeft_eq, mul_comm k 8, two_pow_eight_mul, pow_add, mul_comm]
    exact mul_lt_mul_of_pos_left hb (by positivity)
  have ha' : a.toNat < 256 ^ (k + l) :=
    ha.trans_le (Nat.pow_le_pow_right (by norm_num) (Nat.le_add_right k l))
  have h64 : 256 ^ (k + l) ≤ 2 ^ 64 := by
    rw [← two_pow_eight_mul]
    exact Nat.pow_le_pow_right (by norm_num) (by omega)
  rw [BitVec.toNat_or, BitVec.toNat_shiftLeft, mod_eq_of_lt (hb'.trans_le h64)]
  rw [← two_pow_eight_mul] at *
  exact or_lt_two_pow ha' hb'

/-- The concatenation of two adjacent symbols that fits the cap. -/
def FsstSym.cat (a b : FsstSym) (h : a.len + b.len ≤ fsstMaxSymlen) : FsstSym :=
  ⟨a.val ||| b.val <<< (a.len * 8), a.len + b.len, le_add_right_of_le a.len_pos, h,
    toNat_cat_lt a.val_lt b.val_lt h⟩

/-! ### The lookup table -/

/-- `fsst_hash`. -/
def fsstHash (val : Word) (len : ℕ) : ℕ :=
  let h := val * 0x9E3779B97F4A7C15
  let h := h ^^^ BitVec.ofNat 64 len * 0x100000001B3
  let h := h ^^^ h >>> 29
  h.toNat % 2 ^ 32

/-- The slots of the lookup: a symbol and its code. -/
abbrev FsstLookup := List (Option (FsstSym × ℕ))

/-- The doubling loop for the capacity of a lookup. -/
def capLoop : ℕ → ℕ → ℕ → ℕ
  | 0, cap, _ => cap
  | fuel + 1, cap, need => if cap < need then capLoop fuel (cap * 2) need else cap

/-- The capacity for `nSym` symbols. -/
def fsstCap (nSym : ℕ) : ℕ := capLoop 32 512 (nSym * 4 + 4)

/-- Store one symbol at the first empty slot of its chain. -/
def lookupInsert (lk : FsstLookup) (e : FsstSym × ℕ) : Except Fault FsstLookup :=
  match probe lk (fun _ => false) lk.length (fsstHash e.1.val e.1.len % lk.length) with
  | .empty s => .ok (lk.set s (some e))
  | .hit _ _ => .error .diverges
  | .exhausted => .error .diverges

/-- `fsst_lookup_build`. -/
def fsstLookupBuild (syms : List FsstSym) : Except Fault FsstLookup :=
  syms.zipIdx.foldlM lookupInsert (List.replicate (fsstCap syms.length) none)

/-- `fsst_lookup_find`. -/
def fsstLookupFind (lk : FsstLookup) (val : Word) (len : ℕ) : Except Fault (Option ℕ) :=
  match probe lk (fun e => e.1.val == val && e.1.len == len) lk.length
      (fsstHash val len % lk.length) with
  | .hit _ e => .ok (some e.2)
  | .empty _ => .ok none
  | .exhausted => .error .diverges

/-- `fsst_longest_match`, from the length `L` down: the code and the length matched. -/
def fsstLongestMatch (lk : FsstLookup) (p : List Byte) : ℕ → Except Fault (Option (ℕ × ℕ))
  | 0 => .ok none
  | L + 1 => do
    match ← fsstLookupFind lk (loadUint (p.take (L + 1))) (L + 1) with
    | some c => return some (c, L + 1)
    | none => fsstLongestMatch lk p L

/-! ### Training -/

/-- `FsstCount`: a symbol and its accumulated gain. -/
structure FsstCount where
  sym : FsstSym
  count : ℕ

/-- `fsst_count_add`; the table remembers how many slots are used. -/
def fsstCountAdd (tbl : List (Option FsstCount)) (sym : FsstSym) (gain : ℕ) :
    Except Fault (List (Option FsstCount)) :=
  match probe tbl (fun c => c.sym.val == sym.val && c.sym.len == sym.len) tbl.length
      (fsstHash sym.val sym.len % tbl.length) with
  | .hit s c => .ok (tbl.set s (some ⟨c.sym, (c.count + gain) % 2 ^ 32⟩))
  | .empty s =>
    -- stop admitting new keys past 75% load
    if tbl.length - tbl.length / 4 ≤ tbl.countP Option.isSome then .ok tbl
    else .ok (tbl.set s (some ⟨sym, gain⟩))
  | .exhausted => .error .diverges

/-- `fsst_cand_cmp`: greater gain first, then longer, then by value. -/
def fsstCandLe (a b : FsstCount) : Bool :=
  if a.count ≠ b.count then b.count < a.count
  else if a.sym.len ≠ b.sym.len then b.sym.len < a.sym.len
  else a.sym.val ≤ b.sym.val

/-- The scan of one training round over the bytes from `pos` on. -/
def fsstTrainLoop (syms : List FsstSym) (lk : FsstLookup) :
    ℕ → List Byte → Option FsstSym → List (Option FsstCount) →
      Except Fault (List (Option FsstCount))
  | 0, p, _, tbl => if p = [] then .ok tbl else .error .diverges
  | fuel + 1, p, prev, tbl =>
    if p = [] then .ok tbl
    else do
      let m ← fsstLongestMatch lk p (min p.length fsstMaxSymlen)
      let literal := FsstSym.ofBytes p 1 (le_refl 1) (by decide)
      let (sym, L) := match m with
        | some (c, L) => (syms.getD c literal, L)
        | none => (literal, 1)
      let tbl ← fsstCountAdd tbl sym sym.len
      let tbl ← match prev with
        | none => pure tbl
        | some q =>
          if h : q.len + sym.len ≤ fsstMaxSymlen then
            fsstCountAdd tbl (q.cat sym h) (q.len + sym.len)
          else pure tbl
      fsstTrainLoop syms lk fuel (p.drop L) (some sym) tbl

/-- One round: train on the sample with the current table and keep the best symbols. -/
def fsstRound (sample : List Byte) (slots : ℕ) (cur : List FsstSym) :
    Except Fault (List FsstSym) := do
  let lk ← fsstLookupBuild cur
  let tbl ← fsstTrainLoop cur lk sample.length sample none (List.replicate slots none)
  return ((tbl.reduceOption.mergeSort fsstCandLe).take fsstMaxSymbols).map FsstCount.sym

/-- The round loop of `build_fsst_table`; an empty round ends it. -/
def fsstRounds (sample : List Byte) (slots : ℕ) : ℕ → List FsstSym → Except Fault (List FsstSym)
  | 0, cur => .ok cur
  | k + 1, cur => do
    let next ← fsstRound sample slots cur
    if next = [] then return [] else fsstRounds sample slots k next

/-- `build_fsst_table`: four rounds over at most `FSST_SAMPLE_CAP` bytes, counting in
a table sized to the sample. -/
def buildFsstTable (corpus : List Byte) : Except Fault (List FsstSym) :=
  let sample := corpus.take 262144
  let slots := capLoop 32 4096 (min (sample.length * 2) (2 ^ 17))
  fsstRounds sample slots 4 []

/-- `fsst_serialize_table`. -/
def fsstSerialize (syms : List FsstSym) : List Byte :=
  BitVec.ofNat 8 syms.length :: syms.flatMap fun s => BitVec.ofNat 8 s.len :: s.bytes

/-- `PgColumnarFsstBuildChunkTable`. -/
def fsstBuildChunkTable (att : Attribute) (corpus : List Byte) :
    Except Fault (Option (List Byte)) :=
  if att.attlen ≠ -1 then .ok none
  else if corpus.length < fsstMinRawlen then .ok none
  else do
    let syms ← buildFsstTable corpus
    return if syms = [] then none else some (fsstSerialize syms)

/-- The symbol loop of the two table parsers, on the bytes from `p` to `end`. -/
def fsstParseSyms : ℕ → List Byte → Except Fault (List FsstSym)
  | 0, _ => .ok []
  | k + 1, p =>
    if p.length < 1 then .error (.corrupt "FSST shared table symbol length past end")
    else do
      let L := (← readByte p 0).toNat
      let p := p.drop 1
      if h : 1 ≤ L ∧ L ≤ fsstMaxSymlen then
        if p.length < L then .error (.corrupt "FSST shared table symbol bytes past end")
        else
          let rest ← fsstParseSyms k (p.drop L)
          return FsstSym.ofBytes p L h.1 h.2 :: rest
      else .error (.corrupt "FSST shared table symbol length invalid")

/-- Both table parsers, which differ in the text for an empty table. -/
def fsstParseTable (missing : String) (table : List Byte) : Except Fault (List FsstSym) :=
  if table.length < 1 then .error (.corrupt missing)
  else do
    let nSym := (← readByte table 0).toNat
    if fsstMaxSymbols < nSym then
      .error (.corrupt "FSST shared table symbol count out of range")
    else fsstParseSyms nSym (table.drop 1)

/-- `fsst_deserialize_table`. -/
def fsstDeserialize (table : List Byte) : Except Fault (List FsstSym) :=
  fsstParseTable "FSST shared table truncated" table

/-! ### Encoding and decoding a vector -/

/-- The loop of `encode_fsst_shared` over the bytes from `pos` on. -/
def fsstLoop (lk : FsstLookup) (rawLen : ℕ) :
    ℕ → List Byte → List Byte → Except Fault (Option (List Byte))
  | 0, p, buf => if p = [] then .ok (keepIfSmaller rawLen buf) else .error .diverges
  | fuel + 1, p, buf =>
    match p with
    | [] => .ok (keepIfSmaller rawLen buf)
    | b :: p' => do
      let m ← fsstLongestMatch lk p (min p.length fsstMaxSymlen)
      let (code, L) := match m with
        | some (c, L) => ([BitVec.ofNat 8 c], L)
        | none => ([fsstEscape, b], 1)
      let buf' := buf ++ code
      -- not winning this vector
      if rawLen ≤ buf'.length then return none
      else fsstLoop lk rawLen fuel ((b :: p').drop L) buf'

/-- `encode_fsst_shared`. -/
def encodeFsstShared (raw table : List Byte) : Except Fault (Option (List Byte)) :=
  if raw.length < fsstMinRawlen then .ok none
  else do
    let syms ← fsstDeserialize table
    if syms.length = 0 then return none
    else
      let lk ← fsstLookupBuild syms
      fsstLoop lk raw.length raw.length raw []

/-- A bounded `memcpy` into a buffer. -/
def writeBytes (buf : List Byte) (pos : ℕ) (bs : List Byte) : Except Fault (List Byte) :=
  if pos + bs.length ≤ buf.length then
    .ok (buf.take pos ++ (bs ++ buf.drop (pos + bs.length)))
  else .error .outOfBounds

/-- The decode loop: the output buffer with its slack, and the bytes written so far. -/
def fsstDecodeLoop (syms : List FsstSym) (rawLen : ℕ) :
    List Byte → List Byte → ℕ → Except Fault (List Byte × ℕ)
  | [], raw, outPos => .ok (raw, outPos)
  | c :: p, raw, outPos =>
    if c = fsstEscape then
      match p with
      | [] => .error (.corrupt "FSST escape at encoded length")
      | b :: p =>
        if rawLen ≤ outPos then .error (.corrupt "FSST output exceeds raw length")
        else do
          let raw ← writeBytes raw outPos [b]
          fsstDecodeLoop syms rawLen p raw (outPos + 1)
    else
      match syms[c.toNat]? with
      | none => .error (.corrupt "FSST code out of range")
      | some s =>
        if rawLen - outPos < s.len then .error (.corrupt "FSST output exceeds raw length")
        else do
          -- one fixed 8-byte store; only `s.len` bytes are kept
          let raw ← writeBytes raw outPos (storeUint s.val 8)
          fsstDecodeLoop syms rawLen p raw (outPos + s.len)

/-- `decode_fsst_shared`; the buffer has `FSST_DECODE_SLACK` bytes past `rawLen`. -/
def decodeFsstShared (enc table : List Byte) (rawLen : ℕ) : Except Fault (List Byte) := do
  let syms ← fsstParseTable "FSST shared table missing" table
  let (raw, outPos) ←
    fsstDecodeLoop syms rawLen enc (List.replicate ((if 0 < rawLen then rawLen else 1) + 8) 0) 0
  if outPos ≠ rawLen then .error (.corrupt "FSST output length does not match raw length")
  else return raw.take rawLen

/-! ### The serialized table -/

theorem FsstSym.ext {a b : FsstSym} (hval : a.val = b.val) (hlen : a.len = b.len) : a = b := by
  cases a
  cases b
  simp_all

theorem FsstSym.length_bytes (s : FsstSym) : s.bytes.length = s.len := length_storeUint _ _

/-- The bytes of a symbol, whatever follows them, are parsed back to the symbol. -/
theorem FsstSym.ofBytes_bytes (s : FsstSym) (rest : List Byte) (h1 : 1 ≤ s.len)
    (h8 : s.len ≤ fsstMaxSymlen) : FsstSym.ofBytes (s.bytes ++ rest) s.len h1 h8 = s := by
  refine FsstSym.ext ?_ rfl
  show loadUint ((s.bytes ++ rest).take s.len) = s.val
  rw [take_left' s.length_bytes]
  apply BitVec.eq_of_toNat_eq
  have hlen8 : s.len ≤ 8 := s.len_le
  rw [toNat_loadUint (by rw [s.length_bytes]; exact hlen8), FsstSym.bytes, storeUint,
    leNat_leBytes_of_lt s.val_lt]

theorem fsstParseSyms_flatMap (syms : List FsstSym) : fsstParseSyms syms.length
      (syms.flatMap fun s => BitVec.ofNat 8 s.len :: s.bytes) = .ok syms := by
  induction syms with
  | nil => rfl
  | cons s syms ih =>
    set tail := syms.flatMap fun s => BitVec.ofNat 8 s.len :: s.bytes with htail
    have hlen8 : s.len ≤ 8 := s.len_le
    have hL : (BitVec.ofNat 8 s.len).toNat = s.len := by
      rw [BitVec.toNat_ofNat, mod_eq_of_lt (by omega)]
    have hbyte : readByte (BitVec.ofNat 8 s.len :: (s.bytes ++ tail)) 0 =
        .ok (BitVec.ofNat 8 s.len) := rfl
    have hdrop : (BitVec.ofNat 8 s.len :: (s.bytes ++ tail)).drop 1 = s.bytes ++ tail := rfl
    rw [flatMap_cons, cons_append, ← htail, length_cons, fsstParseSyms, if_neg (by simp)]
    simp only [hbyte, bind, Except.bind, hdrop, hL, drop_left' s.length_bytes, ih, pure,
      Except.pure]
    rw [dif_pos ⟨s.len_pos, s.len_le⟩, if_neg (by rw [length_append, s.length_bytes]; omega),
      s.ofBytes_bytes]

variable {syms : List FsstSym}

/-- **A serialized table is parsed back.** -/
theorem fsstParseTable_fsstSerialize (h : syms.length ≤ fsstMaxSymbols)
    (missing : String) : fsstParseTable missing (fsstSerialize syms) = .ok syms := by
  have hmax : fsstMaxSymbols = 255 := rfl
  have hn : (BitVec.ofNat 8 syms.length).toNat = syms.length := by
    rw [BitVec.toNat_ofNat, mod_eq_of_lt (by omega)]
  set tail := syms.flatMap fun s => BitVec.ofNat 8 s.len :: s.bytes with htail
  have hbyte : readByte (BitVec.ofNat 8 syms.length :: tail) 0 =
      .ok (BitVec.ofNat 8 syms.length) := rfl
  have hdrop : (BitVec.ofNat 8 syms.length :: tail).drop 1 = tail := rfl
  unfold fsstParseTable fsstSerialize
  rw [if_neg (by simp), ← htail]
  simp only [hbyte, bind, Except.bind, hdrop, hn]
  rw [if_neg (by omega), htail, fsstParseSyms_flatMap]

theorem length_fsstRounds {sample : List Byte} {slots k : ℕ} {cur : List FsstSym}
    (hcur : cur.length ≤ fsstMaxSymbols) (h : fsstRounds sample slots k cur = .ok syms) :
    syms.length ≤ fsstMaxSymbols := by
  induction k generalizing cur with
  | zero =>
    obtain rfl := Except.ok.inj h
    exact hcur
  | succ k ih =>
    rw [fsstRounds] at h
    cases hround : fsstRound sample slots cur with
    | error e =>
      rw [hround] at h
      exact absurd h (by simp [bind, Except.bind])
    | ok next =>
      have hnext : next.length ≤ fsstMaxSymbols := by
        unfold fsstRound at hround
        simp only [bind, Except.bind, pure, Except.pure] at hround
        split at hround
        · exact absurd hround (by simp)
        · split at hround
          · exact absurd hround (by simp)
          · obtain rfl := Except.ok.inj hround
            rw [length_map]
            exact length_take_le _ _
      rw [hround] at h
      simp only [bind, Except.bind, pure, Except.pure] at h
      split at h
      · obtain rfl := Except.ok.inj h
        exact zero_le _
      · exact ih hnext h

/-- **Every table the chunk builder returns is a serialized symbol table** of at most
255 symbols. -/
theorem exists_of_fsstBuildChunkTable {att : Attribute} {corpus table : List Byte}
    (h : fsstBuildChunkTable att corpus = .ok (some table)) :
    ∃ syms : List FsstSym, syms ≠ [] ∧ syms.length ≤ fsstMaxSymbols ∧
      table = fsstSerialize syms := by
  unfold fsstBuildChunkTable at h
  split_ifs at h with h1 h2
  · exact absurd (Except.ok.inj h) (by simp)
  · exact absurd (Except.ok.inj h) (by simp)
  · cases hbuild : buildFsstTable corpus with
    | error e =>
      rw [hbuild] at h
      exact absurd h (by simp [bind, Except.bind])
    | ok syms =>
      rw [hbuild] at h
      simp only [bind, Except.bind, pure, Except.pure] at h
      have h' := Except.ok.inj h
      by_cases hnil : syms = []
      · rw [if_pos hnil] at h'
        exact absurd h' (by simp)
      · rw [if_neg hnil] at h'
        exact ⟨syms, hnil, length_fsstRounds (zero_le _) hbuild, (Option.some.inj h').symm⟩

/-! ### Lookups -/

/-- A lookup that has an empty slot and holds symbols of the table under their codes. -/
structure LookupOk (syms : List FsstSym) (lk : FsstLookup) : Prop where
  room : lk.countP Option.isSome < lk.length
  stored : ∀ e, some e ∈ lk → syms[e.2]? = some e.1

theorem le_capLoop {fuel cap need : ℕ} (h : need ≤ cap * 2 ^ fuel) :
    need ≤ capLoop fuel cap need := by
  induction fuel generalizing cap with
  | zero => simpa [capLoop] using h
  | succ fuel ih =>
    rw [capLoop]
    split
    · exact ih (by rw [pow_succ] at h; linarith)
    · omega

variable {lk : FsstLookup}

theorem lookupInsert_ok (h : lk.countP Option.isSome < lk.length) (e : FsstSym × ℕ) :
    ∃ s < lk.length, lk.getD s none = none ∧ lookupInsert lk e = .ok (lk.set s (some e)) := by
  have hpos : 0 < lk.length := zero_lt_of_lt h
  have hstart : fsstHash e.1.val e.1.len % lk.length < lk.length := mod_lt _ hpos
  obtain ⟨k, hk, hempty⟩ := exists_empty h
  have hstop := probe_ne_exhausted (p := fun _ => false) hstart hk hempty
  unfold lookupInsert
  cases hp : probe lk (fun _ => false) lk.length (fsstHash e.1.val e.1.len % lk.length) with
  | hit s a => exact absurd (probe_hit hstart hp).1 (by simp)
  | empty s =>
    obtain ⟨hs, hnone⟩ := probe_empty hstart hp
    exact ⟨s, hs, hnone, rfl⟩
  | exhausted => exact absurd hp hstop

theorem foldlM_lookupInsert {es : List (FsstSym × ℕ)}
    (hroom : lk.countP Option.isSome + es.length < lk.length)
    (hstored : ∀ e, some e ∈ lk → syms[e.2]? = some e.1)
    (hes : ∀ e ∈ es, syms[e.2]? = some e.1) :
    ∃ lk', es.foldlM lookupInsert lk = .ok lk' ∧ LookupOk syms lk' := by
  induction es generalizing lk with
  | nil => exact ⟨lk, rfl, ⟨by simpa using hroom, hstored⟩⟩
  | cons e es ih =>
    rw [length_cons] at hroom
    obtain ⟨s, hs, hnone, hins⟩ := lookupInsert_ok (show lk.countP Option.isSome < lk.length by
      omega) e
    rw [foldlM_cons, hins]
    refine ih ?_ ?_ fun e' he' => hes e' (mem_cons_of_mem e he')
    · rw [countP_set_of_empty hs hnone, length_set]
      omega
    · intro e' he'
      rcases mem_or_eq_of_mem_set he' with he' | he'
      · exact hstored e' he'
      · obtain rfl := Option.some.inj he'
        exact hes e' mem_cons_self

/-- Building the lookup of a table succeeds. -/
theorem fsstLookupBuild_ok (h : syms.length ≤ fsstMaxSymbols) :
    ∃ lk, fsstLookupBuild syms = .ok lk ∧ LookupOk syms lk := by
  have hmax : fsstMaxSymbols = 255 := rfl
  have hcap : syms.length * 4 + 4 ≤ fsstCap syms.length := le_capLoop (by norm_num; omega)
  refine foldlM_lookupInsert ?_ ?_ ?_
  · rw [length_zipIdx, length_replicate, countP_replicate]
    simp only [Option.isSome_none, Bool.false_eq_true, if_false]
    omega
  · intro e he
    exact absurd (mem_replicate.mp he).2 (by simp)
  · intro e he
    exact mem_zipIdx_iff_getElem?.mp he

theorem fsstLookupFind_ok (h : LookupOk syms lk) (val : Word) (len : ℕ) :
    ∃ r, fsstLookupFind lk val len = .ok r ∧
      ∀ c, r = some c → ∃ s, syms[c]? = some s ∧ s.val = val ∧ s.len = len := by
  have hpos : 0 < lk.length := zero_lt_of_lt h.room
  have hstart : fsstHash val len % lk.length < lk.length := mod_lt _ hpos
  obtain ⟨k, hk, hempty⟩ := exists_empty h.room
  have hstop := probe_ne_exhausted (p := fun e : FsstSym × ℕ => e.1.val == val && e.1.len == len)
    hstart hk hempty
  unfold fsstLookupFind
  cases hp : probe lk (fun e => e.1.val == val && e.1.len == len) lk.length
      (fsstHash val len % lk.length) with
  | hit s e =>
    obtain ⟨hpe, hmem⟩ := probe_hit hstart hp
    refine ⟨some e.2, rfl, ?_⟩
    intro c hc
    obtain rfl := Option.some.inj hc
    rw [Bool.and_eq_true, beq_iff_eq, beq_iff_eq] at hpe
    exact ⟨e.1, h.stored e hmem, hpe.1, hpe.2⟩
  | empty s => exact ⟨none, rfl, by simp⟩
  | exhausted => exact absurd hp hstop

/-- The match found is a symbol of the table whose bytes stand at the position. -/
theorem fsstLongestMatch_ok (h : LookupOk syms lk)
    (p : List Byte) {L : ℕ} (hp : L ≤ p.length) (h8 : L ≤ 8) :
    ∃ r, fsstLongestMatch lk p L = .ok r ∧
      ∀ c k, r = some (c, k) → ∃ s, syms[c]? = some s ∧ s.len = k ∧ s.bytes = p.take k := by
  induction L with
  | zero => exact ⟨none, rfl, by simp⟩
  | succ L ih =>
    obtain ⟨r, hr, hfound⟩ := fsstLookupFind_ok h (loadUint (p.take (L + 1))) (L + 1)
    rw [fsstLongestMatch, hr]
    cases r with
    | none => exact ih (by omega) (by omega)
    | some c =>
      refine ⟨some (c, L + 1), rfl, ?_⟩
      intro c' k hck
      obtain ⟨rfl, rfl⟩ := Prod.mk.inj (Option.some.inj hck)
      obtain ⟨s, hs, hval, hlen⟩ := hfound c rfl
      refine ⟨s, hs, hlen, ?_⟩
      have htake : (p.take (L + 1)).length = L + 1 := length_take_of_le hp
      have hload := storeUint_loadUint (show (p.take (L + 1)).length ≤ 8 by omega)
      rw [htake] at hload
      rw [FsstSym.bytes, hval, hlen, hload]

/-! ### The round trip -/

/-- A code stream stands for a byte string: escapes for literals, codes for symbols. -/
inductive Expands (syms : List FsstSym) : List Byte → List Byte → Prop
  | nil : Expands syms [] []
  | escape (b : Byte) {cs out : List Byte} :
      Expands syms cs out → Expands syms (fsstEscape :: b :: cs) (b :: out)
  | symbol (c : Byte) (s : FsstSym) {cs out : List Byte} :
      c ≠ fsstEscape → syms[c.toNat]? = some s →
      Expands syms cs out → Expands syms (c :: cs) (s.bytes ++ out)

/-- **The codes the encoder emits stand for the bytes it read**, and its loop ends. -/
theorem fsstLoop_spec (hsyms : syms.length ≤ fsstMaxSymbols) (h : LookupOk syms lk) (rawLen : ℕ)
    {fuel : ℕ} (p buf : List Byte)
    (hfuel : p.length ≤ fuel) :
    ∃ r, fsstLoop lk rawLen fuel p buf = .ok r ∧
      ∀ out, r = some out → out.length < rawLen ∧ ∃ cs, out = buf ++ cs ∧ Expands syms cs p := by
  have hmax : fsstMaxSymbols = 255 := rfl
  have hdone : ∀ buf : List Byte, ∀ out, keepIfSmaller rawLen buf = some out →
      out.length < rawLen ∧ ∃ cs, out = buf ++ cs ∧ Expands syms cs [] := by
    intro buf out hout
    obtain ⟨rfl, hlt⟩ := keepIfSmaller_eq_some hout
    exact ⟨hlt, [], by simp, .nil⟩
  induction fuel generalizing p buf with
  | zero =>
    obtain rfl : p = [] := eq_nil_of_length_eq_zero (by omega)
    exact ⟨_, rfl, hdone buf⟩
  | succ fuel ih =>
    cases p with
    | nil => exact ⟨_, rfl, hdone buf⟩
    | cons b p =>
      rw [length_cons] at hfuel
      obtain ⟨r, hr, hfound⟩ := fsstLongestMatch_ok h (b :: p)
        (L := min (b :: p).length fsstMaxSymlen) (min_le_left _ _) (min_le_right _ _)
      rw [fsstLoop, hr]
      simp only [bind, Except.bind, pure, Except.pure]
      cases r with
      | none =>
        -- no symbol matches: escape and one literal byte
        dsimp only
        split
        · exact ⟨none, rfl, by simp⟩
        · obtain ⟨r, hr, hout⟩ := ih p (buf ++ [fsstEscape, b]) (by omega)
          refine ⟨r, hr, ?_⟩
          intro out hro
          obtain ⟨hlt, cs, rfl, hexp⟩ := hout out hro
          exact ⟨hlt, fsstEscape :: b :: cs, by simp, .escape b hexp⟩
      | some m =>
        obtain ⟨c, k⟩ := m
        obtain ⟨s, hs, hlen, hbytes⟩ := hfound c k rfl
        have hc : c < syms.length := (List.getElem?_eq_some_iff.mp hs).1
        have hcn : (BitVec.ofNat 8 c).toNat = c := by
          rw [BitVec.toNat_ofNat, mod_eq_of_lt (by omega)]
        have hesc : (BitVec.ofNat 8 c) ≠ fsstEscape := by
          intro heq
          have : (BitVec.ofNat 8 c).toNat = 255 := by rw [heq]; rfl
          omega
        have hpos := s.len_pos
        dsimp only
        split
        · exact ⟨none, rfl, by simp⟩
        · obtain ⟨r, hr, hout⟩ := ih ((b :: p).drop k) (buf ++ [BitVec.ofNat 8 c])
            (by rw [length_drop, length_cons]; omega)
          refine ⟨r, hr, ?_⟩
          intro out hro
          obtain ⟨hlt, cs, rfl, hexp⟩ := hout out hro
          refine ⟨hlt, BitVec.ofNat 8 c :: cs, by simp, ?_⟩
          have hsym := Expands.symbol (BitVec.ofNat 8 c) s hesc (by rw [hcn]; exact hs) hexp
          rwa [hbytes, take_append_drop] at hsym

/-- Behind the bytes `out`, a store whose first `k` bytes are kept. -/
theorem writeBytes_spec {raw out bs : List Byte} {k : ℕ} (htake : raw.take out.length = out)
    (h : out.length + bs.length ≤ raw.length) (hk : k ≤ bs.length) :
    ∃ raw', writeBytes raw out.length bs = .ok raw' ∧ raw'.length = raw.length ∧
      raw'.take (out ++ bs.take k).length = out ++ bs.take k := by
  refine ⟨_, if_pos h, ?_, ?_⟩
  · simp only [length_append, length_take, length_drop]
    omega
  · rw [htake, length_append, length_take_of_le hk, take_length_add_append,
      take_append_of_le_length hk]

theorem leBytes_take (k m v : ℕ) (h : k ≤ m) : (leBytes m v).take k = leBytes k v := by
  induction k generalizing m v with
  | zero => simp [leBytes]
  | succ k ih =>
    obtain ⟨m, rfl⟩ := Nat.exists_eq_add_of_lt (show 0 < m by omega)
    rw [zero_add, leBytes, leBytes, take_succ_cons, ih _ _ (by omega)]

/-- The decoder without the slack: every symbol appended at its own length. -/
def fsstDecodeRef (syms : List FsstSym) (rawLen : ℕ) :
    List Byte → List Byte → Except Fault (List Byte)
  | [], out =>
    if out.length ≠ rawLen then
      .error (.corrupt "FSST output length does not match raw length")
    else .ok out
  | c :: p, out =>
    if c = fsstEscape then
      match p with
      | [] => .error (.corrupt "FSST escape at encoded length")
      | b :: p =>
        if rawLen ≤ out.length then .error (.corrupt "FSST output exceeds raw length")
        else fsstDecodeRef syms rawLen p (out ++ [b])
    else
      match syms[c.toNat]? with
      | none => .error (.corrupt "FSST code out of range")
      | some s =>
        if rawLen - out.length < s.len then .error (.corrupt "FSST output exceeds raw length")
        else fsstDecodeRef syms rawLen p (out ++ s.bytes)

theorem fsstDecodeRef_ne_outOfBounds (rawLen : ℕ) (enc out : List Byte) :
    fsstDecodeRef syms rawLen enc out ≠ .error .outOfBounds := by
  fun_induction fsstDecodeRef syms rawLen enc out <;> simp_all

/-- The over-storing loop keeps what the reference has appended. -/
theorem fsstDecodeLoop_eq_ref {rawLen : ℕ} (enc : List Byte) {raw out : List Byte}
    (hslack : rawLen + 8 ≤ raw.length) (hout : out.length ≤ rawLen)
    (htake : raw.take out.length = out) :
    (do
      let r ← fsstDecodeLoop syms rawLen enc raw out.length
      if r.2 ≠ rawLen then .error (.corrupt "FSST output length does not match raw length")
      else return r.1.take rawLen) = fsstDecodeRef syms rawLen enc out := by
  fun_induction fsstDecodeRef syms rawLen enc out generalizing raw with
  | case1 out hne =>
    rw [fsstDecodeLoop]
    exact if_pos hne
  | case2 out heq =>
    obtain rfl := not_not.mp heq
    rw [fsstDecodeLoop]
    exact (if_neg (not_not.mpr rfl)).trans (congrArg _ htake)
  | case3 out => rw [fsstDecodeLoop, if_pos rfl]; rfl
  | case4 out b p hlt =>
    rw [fsstDecodeLoop, if_pos rfl, if_pos hlt]
    rfl
  | case5 out b p hlt ih =>
    obtain ⟨raw', hwrite, hlen, hkept⟩ := @writeBytes_spec raw out [b] 1 htake
      (by rw [length_singleton]; omega) (le_refl 1)
    rw [← ih (hlen ▸ hslack) (by rw [length_append, length_singleton]; omega) hkept, fsstDecodeLoop,
      if_pos rfl, if_neg hlt, hwrite, length_append]
    rfl
  | case6 out c p hc hnone =>
    rw [fsstDecodeLoop.eq_def]
    simp only [if_neg hc, hnone]
    rfl
  | case7 out c p hc s hs hlt =>
    rw [fsstDecodeLoop.eq_def]
    simp only [if_neg hc, hs, if_pos hlt]
    rfl
  | case8 out c p hc s hs hlt ih =>
    have hlen8 : s.len ≤ 8 := s.len_le
    have hsym : (storeUint s.val 8).take s.len = s.bytes := leBytes_take _ _ _ hlen8
    have hstore := length_storeUint s.val 8
    obtain ⟨raw', hwrite, hlen, hkept⟩ := writeBytes_spec (k := s.len) htake
      (by rw [hstore]; omega) (hstore ▸ hlen8)
    rw [hsym] at hkept
    rw [← ih (hlen ▸ hslack) (by rw [length_append, s.length_bytes]; omega) hkept,
      fsstDecodeLoop.eq_def]
    simp only [if_neg hc, hs]
    rw [if_neg hlt, hwrite, length_append, s.length_bytes]
    rfl

theorem fsstDecodeRef_of_expands {cs raw out : List Byte} {rawLen : ℕ} (h : Expands syms cs raw)
    (hroom : out.length + raw.length = rawLen) :
    fsstDecodeRef syms rawLen cs out = .ok (out ++ raw) := by
  induction h generalizing out with
  | nil => rw [fsstDecodeRef, if_neg (not_not.mpr hroom : ¬ out.length ≠ rawLen), append_nil]
  | @escape b cs raw _ ih =>
    rw [length_cons] at hroom
    rw [fsstDecodeRef, if_pos rfl, if_neg (by omega), ih (by simp; omega), append_assoc,
      singleton_append]
  | @symbol c s cs raw hc hs _ ih =>
    rw [length_append, s.length_bytes] at hroom
    rw [fsstDecodeRef.eq_def]
    simp only [if_neg hc, hs]
    rw [if_neg (by omega), ih (by rw [length_append, s.length_bytes]; omega), append_assoc]

/-- **The over-storing decoder is the reference.** -/
theorem decodeFsstShared_eq_ref (hsyms : syms.length ≤ fsstMaxSymbols) (enc : List Byte)
    (rawLen : ℕ) :
    decodeFsstShared enc (fsstSerialize syms) rawLen = fsstDecodeRef syms rawLen enc [] := by
  unfold decodeFsstShared
  rw [fsstParseTable_fsstSerialize hsyms]
  refine @fsstDecodeLoop_eq_ref syms rawLen enc _ [] ?_ (zero_le _) rfl
  rw [length_replicate]
  split <;> omega

/-- **FSST round trip**: the encoder returns, and what it keeps decodes to the stream. -/
theorem decodeFsstShared_encodeFsstShared (hsyms : syms.length ≤ fsstMaxSymbols) (raw : List Byte) :
    ∃ r, encodeFsstShared raw (fsstSerialize syms) = .ok r ∧ ∀ out, r = some out →
        decodeFsstShared out (fsstSerialize syms) raw.length = .ok raw := by
  unfold encodeFsstShared
  split
  · exact ⟨none, rfl, by simp⟩
  · obtain ⟨lk, hlk, hok⟩ := fsstLookupBuild_ok hsyms
    rw [fsstDeserialize, fsstParseTable_fsstSerialize hsyms]
    simp only [bind, Except.bind, hlk, pure, Except.pure]
    split
    · exact ⟨none, rfl, by simp⟩
    · obtain ⟨r, hr, hout⟩ := fsstLoop_spec hsyms hok raw.length raw [] (le_refl raw.length)
      refine ⟨r, hr, ?_⟩
      intro out hro
      obtain ⟨-, cs, rfl, hexp⟩ := hout out hro
      rw [decodeFsstShared_eq_ref hsyms]
      exact fsstDecodeRef_of_expands hexp (zero_add _)

/-- **FSST as a whole.**  A serialized table is parsed back, what the encoder keeps decodes to the
stream, and on every code stream the over-storing decoder returns what the reference returns, no
store reaching past the slack. -/
theorem fsst_roundTrip (hsyms : syms.length ≤ fsstMaxSymbols) :
    fsstDeserialize (fsstSerialize syms) = .ok syms ∧
      (∀ raw, ∃ r, encodeFsstShared raw (fsstSerialize syms) = .ok r ∧ ∀ out, r = some out →
        decodeFsstShared out (fsstSerialize syms) raw.length = .ok raw) ∧
      ∀ enc rawLen,
        decodeFsstShared enc (fsstSerialize syms) rawLen = fsstDecodeRef syms rawLen enc [] ∧
          decodeFsstShared enc (fsstSerialize syms) rawLen ≠ .error .outOfBounds := by
  refine ⟨fsstParseTable_fsstSerialize hsyms _, decodeFsstShared_encodeFsstShared hsyms, ?_⟩
  intro enc rawLen
  rw [decodeFsstShared_eq_ref hsyms]
  exact ⟨rfl, fsstDecodeRef_ne_outOfBounds rawLen enc []⟩

theorem fsst_roundTrip_overlap :
    let syms := [FsstSym.ofBytes [97] 1 (by decide) (by decide),
      FsstSym.ofBytes [97, 98] 2 (by decide) (by decide)]
    fsstDeserialize (fsstSerialize syms) = .ok syms ∧
      (∀ raw, ∃ r, encodeFsstShared raw (fsstSerialize syms) = .ok r ∧ ∀ out, r = some out →
        decodeFsstShared out (fsstSerialize syms) raw.length = .ok raw) ∧
      ∀ enc rawLen,
        decodeFsstShared enc (fsstSerialize syms) rawLen = fsstDecodeRef syms rawLen enc [] ∧
          decodeFsstShared enc (fsstSerialize syms) rawLen ≠ .error .outOfBounds :=
  fsst_roundTrip (by decide)

end Encoding
end PgColumnar
