import PgColumnar.Encoding.Chunk

/-!
# The encoding descriptor of a column chunk

The catalog keeps, beside each column chunk, a descriptor of its vectors: a header with a
version, flags and the number of vectors, one entry for each vector, and the symbol table
that the vectors share (`columnar_encdesc.h`).  The values region of the chunk is the
encoded vectors one after another, optionally compressed as a whole.
`pgcolumnar_native_decode_chunk` undoes the compression, cuts the region by the lengths of
the descriptor and decodes each vector, except those it is told to skip.

## Main definitions

* `putDescriptor`, `readDescriptor` — the descriptor and its reader.

## Main results

* `readDescriptor_putDescriptor` — it is read back.
-/

namespace PgColumnar.Page

open Bytes Encoding List

/-- What a flush or a read can raise: a fault of the encodings, or a request for more memory
than an allocation may have. -/
inductive Failure where
  | fault (f : Fault)
  | allocSize
  deriving DecidableEq

/-- `MaxAllocSize`. -/
def maxAllocSize : ℕ := 0x3fffffff

def corrupt {α : Type} (msg : String) : Except Failure α := .error (.fault (.corrupt msg))

def ofFault {α : Type} : Except Fault α → Except Failure α
  | .error f => .error (.fault f)
  | .ok a => .ok a

/-! ### The layout -/

/-- `PgColumnarEncdescEntry`. -/
structure EncdescEntry where
  type : ℕ
  valueCount : ℕ
  rawLen : ℕ
  encLen : ℕ
  deriving DecidableEq

/-- The fields fit their widths. -/
structure EncdescEntry.Fits (e : EncdescEntry) : Prop where
  type : e.type < 2 ^ 8
  valueCount : e.valueCount < 2 ^ 32
  rawLen : e.rawLen < 2 ^ 32
  encLen : e.encLen < 2 ^ 32

/-- `PgColumnarEncdescPutHeaderFlags`. -/
def putHeaderFlags (vectorCount flags : ℕ) : List Byte :=
  leBytes 1 3 ++ leBytes 1 flags ++ leBytes 4 vectorCount

/-- `PgColumnarEncdescPutEntry`. -/
def putEntry (e : EncdescEntry) : List Byte :=
  leBytes 1 e.type ++ leBytes 4 e.valueCount ++ leBytes 4 e.rawLen ++ leBytes 4 e.encLen

/-- The trailing region: the shared symbol table, by its length. -/
def putSharedTable (table : List Byte) : List Byte := leBytes 4 table.length ++ table

def putDescriptor (flags : ℕ) (entries : List EncdescEntry) (table : List Byte) : List Byte :=
  putHeaderFlags entries.length flags ++ entries.flatMap putEntry ++ putSharedTable table

/-- `PgColumnarEncdescVersionSupported`. -/
def versionSupported (desc : List Byte) : Bool :=
  decide (2 ≤ (desc.getD 0 0).toNat) && decide ((desc.getD 0 0).toNat ≤ 3)

/-- `PgColumnarEncdescOmitsValidity`. -/
def omitsValidity (desc : List Byte) : Bool :=
  if desc.length < 6 then false
  else if (desc.getD 0 0).toNat = 0 then false
  else (desc.getD 1 0).getLsbD 0

/-- `PgColumnarEncdescReadVectorCount`. -/
def readVectorCount (desc : List Byte) : ℕ := leNat ((desc.drop 2).take 4)

/-- `PgColumnarEncdescReadEntry`. -/
def readEntry (dp : List Byte) : EncdescEntry where
  type := leNat (dp.take 1)
  valueCount := leNat ((dp.drop 1).take 4)
  rawLen := leNat ((dp.drop 5).take 4)
  encLen := leNat ((dp.drop 9).take 4)

def readEntries : ℕ → List Byte → List EncdescEntry
  | 0, _ => []
  | n + 1, dp => readEntry dp :: readEntries n (dp.drop 13)

/-- `PgColumnarEncdescTotalValueCount`. -/
def totalValueCount (desc : List Byte) : Option ℕ :=
  if desc.length < 6 then none
  else if desc.length < 6 + readVectorCount desc * 13 then none
  else some ((readEntries (readVectorCount desc) (desc.drop 6)).map (·.valueCount)).sum

/-- The descriptor as a reader of it has checked it. -/
structure Descriptor where
  entries : List EncdescEntry
  table : Option (List Byte)

/-- The checks at the head of `pgcolumnar_native_decode_chunk`. -/
def readDescriptor (desc : List Byte) : Except Failure Descriptor :=
  if desc.length < 6 ∨ versionSupported desc = false then
    corrupt "pgcolumnar: unrecognized native encoding descriptor"
  else
    let entriesEnd := 6 + readVectorCount desc * 13
    if desc.length < entriesEnd + 4 then
      corrupt "pgcolumnar: native encoding descriptor length mismatch"
    else
      let sharedTableLen := leNat ((desc.drop entriesEnd).take 4)
      if desc.length ≠ entriesEnd + 4 + sharedTableLen then
        corrupt "pgcolumnar: native encoding descriptor length mismatch"
      else
        .ok ⟨readEntries (readVectorCount desc) (desc.drop 6),
          if 0 < sharedTableLen then some (desc.drop (entriesEnd + 4)) else none⟩

/-! ### The block codec -/

/-- `COLUMNAR_COMPRESSION_*`, other than none. -/
inductive CompressionType where
  | pglz
  | lz4
  | zstd
  deriving DecidableEq

/-- The block codecs of the build: compression at a level, nothing when the codec is not
built in or does not shrink the bytes, and decompression to a known length. -/
structure BlockCodec where
  compress : CompressionType → ℤ → List Byte → Option (List Byte)
  decompress : CompressionType → List Byte → ℕ → Except Failure (List Byte)
  decompress_compress : ∀ t level raw out, compress t level raw = some out →
    decompress t out raw.length = .ok raw

/-- `PgColumnarCompressValueStream`: the bytes, and the codec that was used. -/
def compressValueStream (codec : BlockCodec) (requested : Option CompressionType) (level : ℤ)
    (raw : List Byte) : Option CompressionType × List Byte :=
  if raw = [] then (none, [])
  else
    match requested with
    | none => (none, raw)
    | some t =>
      match codec.compress t level raw with
      | none => (none, raw)
      | some out => (some t, out)

/-! ### Decoding -/

/-- Bytes of the buffer that nothing has written. -/
def hole (fill : ℕ → Byte) (pos len : ℕ) : List Byte := (List.range len).map fun i => fill (pos + i)

/-- One vector: decoded, or left as a hole of its length. -/
def decodeVector (att : Attribute) (table : Option (List Byte)) (fill : ℕ → Byte) (skip : Bool)
    (pos : ℕ) (e : EncdescEntry) (enc : List Byte) : Except Fault (List Byte) :=
  if 0 < e.rawLen then
    if skip then .ok (hole fill pos e.rawLen)
    else decodeChunk (enc.take e.encLen) e.type att e.valueCount e.rawLen table
  else .ok []

/-- The second pass over the entries; both cursors move by the recorded lengths. -/
def decodeVectors (att : Attribute) (table : Option (List Byte)) (fill : ℕ → Byte)
    (skipVec : ℕ → Bool) : ℕ → ℕ → List EncdescEntry → List Byte → Except Fault (List Byte × ℕ)
  | _, _, [], _ => .ok ([], 0)
  | v, pos, e :: es, enc =>
    match decodeVector att table fill (skipVec v) pos e enc with
    | .error f => .error f
    | .ok raw =>
      match decodeVectors att table fill skipVec (v + 1) (pos + e.rawLen) es
        (enc.drop e.encLen) with
      | .error f => .error f
      | .ok (rest, n) => .ok (raw ++ rest, if skipVec v then n else n + 1)

/-- Undo the block codec. -/
def encRegion (codec : BlockCodec) (blockCodec : Option CompressionType) (values : List Byte)
    (encTotal : ℕ) : Except Failure (List Byte) :=
  match blockCodec with
  | some t => codec.decompress t values (encTotal % 2 ^ 32)
  | none =>
    if values.length ≠ encTotal then
      corrupt "pgcolumnar: native chunk length does not match descriptor"
    else .ok values

/-- `rawBuf`, `outVecRawLen` and `outVecDecoded`. -/
structure DecodedChunk where
  raw : List Byte
  vecRawLen : List ℕ
  vecDecoded : ℕ

/-- `pgcolumnar_native_decode_chunk`.  The buffer holds `fill` when it is allocated. -/
def nativeDecodeChunk (codec : BlockCodec) (att : Attribute) (fill : ℕ → Byte)
    (values desc : List Byte) (blockCodec : Option CompressionType) (skipVec : ℕ → Bool) :
    Except Failure DecodedChunk := do
  let d ← readDescriptor desc
  let region ← encRegion codec blockCodec values (d.entries.map (·.encLen)).sum
  if maxAllocSize < (d.entries.map (·.rawLen)).sum then .error .allocSize
  else
    let (raw, n) ← ofFault (decodeVectors att d.table fill skipVec 0 0 d.entries region)
    return ⟨raw, d.entries.map (·.rawLen), n⟩

/-! ### The descriptor is read back -/

@[simp] theorem length_putHeaderFlags (n flags : ℕ) : (putHeaderFlags n flags).length = 6 := by
  simp [putHeaderFlags]

@[simp] theorem length_putEntry (e : EncdescEntry) : (putEntry e).length = 13 := by
  simp [putEntry]

@[simp] theorem length_flatMap_putEntry (entries : List EncdescEntry) :
    (entries.flatMap putEntry).length = entries.length * 13 := by
  induction entries with
  | nil => rfl
  | cons e es ih =>
    rw [flatMap_cons, length_append, ih, length_putEntry, length_cons]
    omega

theorem take_leBytes (k v : ℕ) (rest : List Byte) : (leBytes k v ++ rest).take k = leBytes k v := by
  rw [take_left' (length_leBytes k v)]

theorem drop_leBytes (k v : ℕ) (rest : List Byte) : (leBytes k v ++ rest).drop k = rest := by
  rw [drop_left' (length_leBytes k v)]

theorem readEntry_putEntry {e : EncdescEntry} (he : e.Fits) (rest : List Byte) :
    readEntry (putEntry e ++ rest) = e := by
  have h1 : (putEntry e ++ rest).drop 1 =
      leBytes 4 e.valueCount ++ (leBytes 4 e.rawLen ++ (leBytes 4 e.encLen ++ rest)) := by
    simp only [putEntry, append_assoc]
    exact drop_leBytes 1 _ _
  have h5 : (putEntry e ++ rest).drop 5 = leBytes 4 e.rawLen ++ (leBytes 4 e.encLen ++ rest) := by
    rw [show 5 = 1 + 4 from rfl, ← drop_drop, h1]
    exact drop_leBytes 4 _ _
  have h9 : (putEntry e ++ rest).drop 9 = leBytes 4 e.encLen ++ rest := by
    rw [show 9 = 5 + 4 from rfl, ← drop_drop, h5]
    exact drop_leBytes 4 _ _
  have h0 : (putEntry e ++ rest).take 1 = leBytes 1 e.type := by
    simp only [putEntry, append_assoc]
    exact take_leBytes 1 _ _
  unfold readEntry
  rw [h0, h1, h5, h9, take_leBytes, take_leBytes, take_leBytes, leNat_leBytes_of_lt he.type,
    leNat_leBytes_of_lt he.valueCount, leNat_leBytes_of_lt he.rawLen, leNat_leBytes_of_lt he.encLen]

theorem readEntries_flatMap {entries : List EncdescEntry} (h : ∀ e ∈ entries, e.Fits)
    (rest : List Byte) :
    readEntries entries.length (entries.flatMap putEntry ++ rest) = entries := by
  induction entries with
  | nil => rfl
  | cons e es ih =>
    rw [flatMap_cons, append_assoc, length_cons, readEntries,
      readEntry_putEntry (h e mem_cons_self),
      drop_left' (length_putEntry e), ih fun e' he' => h e' (mem_cons_of_mem e he')]

section Put

variable {flags : ℕ} {entries : List EncdescEntry} {table : List Byte}

theorem length_putDescriptor : (putDescriptor flags entries table).length =
    6 + entries.length * 13 + 4 + table.length := by
  simp only [putDescriptor, putSharedTable, length_append, length_putHeaderFlags,
    length_flatMap_putEntry, length_leBytes]
  omega

theorem readVectorCount_putDescriptor (hn : entries.length < 2 ^ 32) :
    readVectorCount (putDescriptor flags entries table) = entries.length := by
  have h2 : (putDescriptor flags entries table).drop 2 =
      leBytes 4 entries.length ++ (entries.flatMap putEntry ++ putSharedTable table) := by
    simp only [putDescriptor, putHeaderFlags, append_assoc]
    rfl
  unfold readVectorCount
  rw [h2, take_leBytes, leNat_leBytes_of_lt (by omega)]

theorem drop_header_putDescriptor : (putDescriptor flags entries table).drop 6 =
    entries.flatMap putEntry ++ putSharedTable table := by
  unfold putDescriptor
  rw [append_assoc, drop_left' (length_putHeaderFlags _ _)]

theorem drop_entries_putDescriptor :
    (putDescriptor flags entries table).drop (6 + entries.length * 13) = putSharedTable table := by
  rw [← drop_drop, drop_header_putDescriptor, drop_left' (length_flatMap_putEntry entries)]

theorem readEntries_putDescriptor (h : ∀ e ∈ entries, e.Fits) :
    readEntries entries.length ((putDescriptor flags entries table).drop 6) = entries := by
  rw [drop_header_putDescriptor, readEntries_flatMap h]

/-- **The descriptor is read back.** -/
theorem readDescriptor_putDescriptor (h : ∀ e ∈ entries, e.Fits) (hn : entries.length < 2 ^ 32)
    (ht : table.length < 2 ^ 32) :
    readDescriptor (putDescriptor flags entries table) =
      .ok ⟨entries, if 0 < table.length then some table else none⟩ := by
  have hlen : (putDescriptor flags entries table).length =
      6 + entries.length * 13 + 4 + table.length := length_putDescriptor
  have hversion : versionSupported (putDescriptor flags entries table) = true := rfl
  have hshared : leNat (((putDescriptor flags entries table).drop
      (6 + entries.length * 13)).take 4) = table.length := by
    rw [drop_entries_putDescriptor, putSharedTable, take_leBytes, leNat_leBytes_of_lt (by omega)]
  have htable : (putDescriptor flags entries table).drop (6 + entries.length * 13 + 4) = table := by
    rw [← drop_drop, drop_entries_putDescriptor, putSharedTable, drop_leBytes]
  unfold readDescriptor
  rw [readVectorCount_putDescriptor hn, hversion]
  rw [if_neg (not_or.mpr ⟨by omega, by simp⟩), if_neg (by omega), hshared, if_neg (by omega),
    htable, readEntries_putDescriptor h]

theorem totalValueCount_putDescriptor (h : ∀ e ∈ entries, e.Fits) (hn : entries.length < 2 ^ 32) :
    totalValueCount (putDescriptor flags entries table) =
      some (entries.map (·.valueCount)).sum := by
  have hlen : (putDescriptor flags entries table).length =
      6 + entries.length * 13 + 4 + table.length := length_putDescriptor
  unfold totalValueCount
  rw [readVectorCount_putDescriptor hn, if_neg (by omega), if_neg (by omega),
    readEntries_putDescriptor h]

theorem omitsValidity_putDescriptor :
    omitsValidity (putDescriptor flags entries table) = (BitVec.ofNat 8 flags).getLsbD 0 := by
  have hlen : (putDescriptor flags entries table).length =
      6 + entries.length * 13 + 4 + table.length := length_putDescriptor
  unfold omitsValidity
  rw [if_neg (by omega)]
  rfl

end Put

/-! ### The vectors decode one after another -/

/-- A vector of a chunk: its stored form and the stream it stands for. -/
structure StoredVector where
  type : ℕ
  valueCount : ℕ
  enc : List Byte
  raw : List Byte

def StoredVector.entry (p : StoredVector) : EncdescEntry :=
  ⟨p.type, p.valueCount, p.raw.length, p.enc.length⟩

/-- The stored form decodes to the stream, unless there is nothing to decode. -/
def StoredVector.Decodes (p : StoredVector) (att : Attribute) (table : Option (List Byte)) : Prop :=
  0 < p.raw.length → decodeChunk p.enc p.type att p.valueCount p.raw.length table = .ok p.raw

/-- The streams one after another, with holes for the vectors skipped. -/
def withHoles (fill : ℕ → Byte) (skipVec : ℕ → Bool) : ℕ → ℕ → List (List Byte) → List Byte
  | _, _, [] => []
  | v, pos, raw :: rest =>
    (if skipVec v then hole fill pos raw.length else raw) ++
      withHoles fill skipVec (v + 1) (pos + raw.length) rest

section Decode

variable {att : Attribute} {table : Option (List Byte)} {fill : ℕ → Byte} {skipVec : ℕ → Bool}

theorem decodeVector_entry {p : StoredVector} {skip : Bool}
    (hp : skip = false → p.Decodes att table) (pos : ℕ) (rest : List Byte) :
    decodeVector att table fill skip pos p.entry (p.enc ++ rest) =
      .ok (if skip then hole fill pos p.raw.length else p.raw) := by
  unfold decodeVector
  have htake : (p.enc ++ rest).take p.entry.encLen = p.enc := take_left
  rw [htake]
  by_cases hpos : 0 < p.raw.length
  · rw [if_pos (show 0 < p.entry.rawLen from hpos)]
    cases skip with
    | true => rfl
    | false => exact hp rfl hpos
  · rw [if_neg (show ¬ 0 < p.entry.rawLen from hpos)]
    have hnil : p.raw = [] := length_eq_zero_iff.mp (by omega)
    rw [hnil]
    cases skip <;> rfl

/-- Vectors that decode, or are skipped, decode one after another. -/
theorem decodeVectors_eq (parts : List StoredVector) (v pos : ℕ)
    (h : ∀ i p, parts[i]? = some p → skipVec (v + i) = false → p.Decodes att table) :
    decodeVectors att table fill skipVec v pos (parts.map (·.entry)) (parts.flatMap (·.enc)) =
      .ok (withHoles fill skipVec v pos (parts.map (·.raw)),
        (List.range parts.length).countP fun i => !skipVec (v + i)) := by
  induction parts generalizing v pos with
  | nil => rfl
  | cons p parts ih =>
    have hrest : ∀ i q, parts[i]? = some q → skipVec (v + 1 + i) = false → q.Decodes att table := by
      intro i q hq hskip
      refine h (i + 1) q (by rwa [getElem?_cons_succ]) ?_
      rwa [show v + (i + 1) = v + 1 + i by omega]
    have hhead : skipVec v = false → p.Decodes att table := h 0 p rfl
    rw [map_cons, flatMap_cons, decodeVectors, decodeVector_entry hhead pos]
    rw [show (p.enc ++ parts.flatMap (·.enc)).drop p.entry.encLen = parts.flatMap (·.enc) from
      drop_left, show pos + p.entry.rawLen = pos + p.raw.length from rfl,
      ih (v + 1) (pos + p.raw.length) hrest]
    rw [map_cons, withHoles, length_cons, range_succ_eq_map, countP_cons, countP_map]
    have hcount : (List.range parts.length).countP ((fun i => !skipVec (v + i)) ∘ Nat.succ) =
        (List.range parts.length).countP fun i => !skipVec (v + 1 + i) := by
      congr 1
      funext i
      simp only [Function.comp_apply]
      rw [show v + i.succ = v + 1 + i by omega]
    rw [hcount]
    cases skipVec v <;> simp

/-- Without skipping the streams are decoded whole. -/
theorem withHoles_none (v pos : ℕ) (raws : List (List Byte)) :
    withHoles fill (fun _ => false) v pos raws = raws.flatten := by
  induction raws generalizing v pos with
  | nil => rfl
  | cons raw raws ih =>
    rw [withHoles, ih, flatten_cons]
    rfl

/-- One vector that does not decode fails the chunk. -/
theorem decodeVectors_error (parts : List StoredVector) (v pos : ℕ) {p : StoredVector}
    (hp : p ∈ parts) (hpos : 0 < p.raw.length) {f : Fault}
    (hfail : decodeChunk p.enc p.type att p.valueCount p.raw.length table = .error f) :
    ∃ f', decodeVectors att table fill (fun _ => false) v pos (parts.map (·.entry))
      (parts.flatMap (·.enc)) = .error f' := by
  induction parts generalizing v pos with
  | nil => cases hp
  | cons q parts ih =>
    rw [map_cons, flatMap_cons, decodeVectors]
    cases hq : decodeVector att table fill false pos q.entry (q.enc ++ parts.flatMap (·.enc)) with
    | error f' => exact ⟨f', rfl⟩
    | ok raw =>
      rcases mem_cons.mp hp with rfl | hmem
      · unfold decodeVector at hq
        rw [if_pos (show 0 < p.entry.rawLen from hpos), if_neg (by simp),
          show (p.enc ++ parts.flatMap (·.enc)).take p.entry.encLen = p.enc from take_left] at hq
        rw [show decodeChunk p.enc p.entry.type att p.entry.valueCount p.entry.rawLen table =
          .error f from hfail] at hq
        cases hq
      · obtain ⟨f', hf'⟩ := ih (v + 1) (pos + q.entry.rawLen) hmem
        rw [show (q.enc ++ parts.flatMap (·.enc)).drop q.entry.encLen = parts.flatMap (·.enc) from
          drop_left, hf']
        exact ⟨f', rfl⟩

end Decode

end PgColumnar.Page
