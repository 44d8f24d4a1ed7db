import PgColumnar.Encoding.Value
import PgColumnar.Lib.Bitmap
import PgColumnar.Page.Descriptor

/-!
# Writing and reading a column chunk

`flush_one_column` lays out the page of one column of a row group: the validity bitmap,
unless every row has a value, and the values region.  It carries the raw streams along with
the encoded ones, and when the block codec makes more of the raw streams it stores these,
with a descriptor that says so.  The reader finds the values region from the descriptor's
flags, decodes it, and walks the rows by their validity bits.

What decides about the symbol table (`PgColumnarFsstDictWins`,
`PgColumnarFsstHelpsCompressed`) is a parameter: any answer is fine.

## Main definitions

* `flushOneColumn`, `loadColumn`, `readRows` — a chunk written, loaded and read row by row.
* `Recoverable` — no vector is stored as runs of an odd width, and nothing is too large.

## Main results

* `exists_layout` — what a flush has laid out.
* `roundTrip_iff_recoverable` — exactly the recoverable pages are read back.
-/

namespace PgColumnar.Page

open Bytes Encoding List

/-! ### The writer -/

/-- `appendBinaryStringInfo`: a string buffer stays below the limit of an allocation. -/
def appendBytes (buf bytes : List Byte) : Except Failure (List Byte) :=
  if maxAllocSize ≤ buf.length + bytes.length then .error .allocSize else .ok (buf ++ bytes)

/-- One vector of a column as the write buffer holds it: a value or null for each row. -/
structure VectorBuffer (att : Attribute) where
  rows : List (Option (List Byte))
  stored : ∀ v, some v ∈ rows → IsStored att v
  fits : (rows.filterMap id).flatten.length < maxAllocSize

namespace VectorBuffer

variable {att : Attribute}

def values (b : VectorBuffer att) : List (List Byte) := b.rows.filterMap id

def valueStream (b : VectorBuffer att) : List Byte := b.values.flatten

def valueCount (b : VectorBuffer att) : ℕ := b.values.length

end VectorBuffer

/-- `COLUMNAR_FSST_*`: what the last row group said about the symbol table. -/
inductive FsstVerdict where
  | unknown
  | helps
  | hurts
  deriving DecidableEq

/-- `fsstVerdict` and `fsstVerdictAge` of the column. -/
structure FsstMemo where
  verdict : FsstVerdict
  age : ℕ
  deriving DecidableEq

/-- The settings of a flush, and the two questions about the symbol table. -/
structure FlushOptions where
  sampleRows : ℕ
  encodeFast : Bool
  postCodecChoice : Bool
  verdictReuse : ℕ
  compression : Option CompressionType
  level : ℤ
  dictWins : List Byte → Bool
  helpsCompressed : List Byte → List Byte → Bool

/-- The bytes the table is decided on, and how many of them it is trained on. -/
def corpusLoop : List (List Byte) → List Byte → ℕ → Except Failure (List Byte × ℕ)
  | [], corpus, sampleLen => .ok (corpus, sampleLen)
  | stream :: rest, corpus, sampleLen => do
    let corpus ← if 0 < stream.length then appendBytes corpus stream else .ok corpus
    let sampleLen := if sampleLen = 0 ∧ 262144 ≤ corpus.length then corpus.length else sampleLen
    -- `COLUMNAR_FSST_DECIDE_CAP`
    if 4 * 1024 * 1024 ≤ corpus.length then .ok (corpus, sampleLen)
    else corpusLoop rest corpus sampleLen

/-- The last verdict is taken over. -/
def reusesVerdict (opts : FlushOptions) (memo : FsstMemo) : Bool :=
  decide (0 < opts.verdictReuse ∧ memo.verdict ≠ .unknown ∧ memo.age < opts.verdictReuse)

/-- Whether a table that was built is kept, and what is remembered. -/
def keepTable (opts : FlushOptions) (memo : FsstMemo) (corpus : List Byte) :
    Option (List Byte) → Option (List Byte) × FsstMemo
  | some t =>
    if reusesVerdict opts memo then
      (if memo.verdict = .helps then some t else none, { memo with age := memo.age + 1 })
    else if opts.helpsCompressed corpus t then (some t, ⟨.helps, 0⟩)
    else (none, ⟨.hurts, 0⟩)
  | none =>
    if reusesVerdict opts memo ∧ memo.verdict = .hurts then
      (none, { memo with age := memo.age + 1 })
    else (none, memo)

/-- The table, when it is worth building. -/
def buildTable (opts : FlushOptions) (memo : FsstMemo) (att : Attribute) (corpus : List Byte)
    (sampleLen : ℕ) : Except Failure (Option (List Byte)) :=
  if 0 < corpus.length ∧ opts.encodeFast = false ∧
      ¬ (reusesVerdict opts memo ∧ memo.verdict = .hurts) ∧ opts.dictWins corpus = false then
    ofFault (fsstBuildChunkTable att (corpus.take sampleLen))
  else .ok none

/-- The chunk-shared symbol table. -/
def chunkTable (opts : FlushOptions) (memo : FsstMemo) (att : Attribute)
    (streams : List (List Byte)) : Except Failure (Option (List Byte) × FsstMemo) :=
  if att.attlen = -1 then do
    let (corpus, sampled) ← corpusLoop streams [] 0
    let built ← buildTable opts memo att corpus (if sampled = 0 then corpus.length else sampled)
    return keepTable opts memo corpus built
  else .ok (none, memo)

/-- The regions and descriptors that the vectors are appended to. -/
structure Regions where
  encoded : List Byte
  desc : List Byte
  rawRegion : List Byte
  rawDesc : List Byte

/-- One vector of the loop. -/
def flushVector (opts : FlushOptions) {att : Attribute} (table : Option (List Byte)) (s : Regions)
    (b : VectorBuffer att) : Except Failure Regions := do
  let best ← ofFault (encodeChunk opts.sampleRows att b.valueStream b.valueCount table)
  let encoded ← appendBytes s.encoded best.buf
  let desc ← appendBytes s.desc (putEntry
    ⟨best.code.code.toNat, b.valueCount, b.valueStream.length, best.buf.length⟩)
  if opts.postCodecChoice then
    let rawRegion ← appendBytes s.rawRegion b.valueStream
    let rawDesc ← appendBytes s.rawDesc (putEntry
      ⟨EncodingType.none.code.toNat, b.valueCount, b.valueStream.length, b.valueStream.length⟩)
    return ⟨encoded, desc, rawRegion, rawDesc⟩
  else return ⟨encoded, desc, s.rawRegion, s.rawDesc⟩

/-- What is stored of a chunk. -/
structure FlushColumnResult where
  chunk : List Byte
  descriptor : List Byte
  blockCodec : Option CompressionType
  deriving DecidableEq

/-- The raw streams, once compressed, are smaller than the encoded ones. -/
def rawWins (codec : BlockCodec) (opts : FlushOptions) (encoded rawRegion : List Byte) : Bool :=
  opts.postCodecChoice && decide (encoded.length < rawRegion.length) &&
    decide ((compressValueStream codec opts.compression opts.level rawRegion).2.length <
      (compressValueStream codec opts.compression opts.level encoded).2.length)

/-- The values region with its descriptor and codec. -/
def finalRegion (codec : BlockCodec) (opts : FlushOptions) (s : Regions) : FlushColumnResult :=
  if opts.compression = none ∨ s.encoded = [] then ⟨s.encoded, s.desc, none⟩
  else if rawWins codec opts s.encoded s.rawRegion then
    let r := compressValueStream codec opts.compression opts.level s.rawRegion
    ⟨r.2, s.rawDesc, r.1⟩
  else
    let c := compressValueStream codec opts.compression opts.level s.encoded
    ⟨c.2, s.desc, c.1⟩

/-- The bits of the rows that have a value. -/
def validityBitmap (rows : List (Option (List Byte))) : List Byte :=
  ((List.range rows.length).filter fun r => (rows.getD r none).isSome).foldl setBit
    (zeros ((rows.length + 7) / 8))

/-- The bitmap, or nothing and the flag that says so. -/
def validityRegion (rows : List (Option (List Byte))) : Except Failure (ℕ × List Byte) :=
  if maxAllocSize < (rows.length + 7) / 8 then .error .allocSize
  else if rows.countP (·.isSome) = rows.length then .ok (1, [])
  else do
    let chunk ← appendBytes [] (validityBitmap rows)
    return (0, chunk)

/-- `flush_one_column`, the zone maps and the bloom filter apart.  A virtual generated column
is not stored. -/
def flushOneColumn (codec : BlockCodec) (opts : FlushOptions) (memo : FsstMemo) (att : Attribute)
    (generated : Bool) (vectors : List (VectorBuffer att)) :
    Except Failure (Option FlushColumnResult × FsstMemo) :=
  if generated then .ok (none, memo)
  else do
    let (flags, chunk) ← validityRegion (vectors.flatMap (·.rows))
    let (table, memo) ← chunkTable opts memo att (vectors.map (·.valueStream))
    let header := putHeaderFlags vectors.length flags
    let s ← vectors.foldlM (flushVector opts table) ⟨[], header, [], header⟩
    let desc ← appendBytes s.desc (putSharedTable (table.getD []))
    let rawDesc ← appendBytes s.rawDesc (putSharedTable [])
    let final := finalRegion codec opts { s with desc := desc, rawDesc := rawDesc }
    let chunk ← appendBytes chunk final.chunk
    return (some { final with chunk := chunk }, memo)

/-! ### The reader -/

/-- `pgcolumnar_chunk_validity_bytes`. -/
def chunkValidityBytes (desc : List Byte) (validityBytes : ℕ) : ℕ :=
  if omitsValidity desc then 0 else validityBytes

/-- `pgcolumnar_chunk_value_bytes`. -/
def chunkValueBytes (pageLength validityBytes attnum : ℕ) : Except Failure ℕ :=
  if pageLength < validityBytes then
    corrupt s!"columnar chunk for column {attnum} has a validity bitmap longer than the chunk"
  else if 2 ^ 32 - 1 < pageLength - validityBytes then
    corrupt s!"columnar chunk for column {attnum} is too large to decode"
  else .ok (pageLength - validityBytes)

/-- The bitmap of a chunk that stored none: every row has a value, and the descriptor has to
account for all of them. -/
def allPresentBits (desc : List Byte) (attnum groupNumber rowCount : ℕ) :
    Except Failure (List Byte) :=
  if totalValueCount desc ≠ some rowCount then
    corrupt s!"columnar chunk for column {attnum} claims no nulls but does not account for every row of row group {groupNumber}"
  else if maxAllocSize < (rowCount + 7) / 8 then
    corrupt s!"columnar row group {groupNumber} declares an implausible row count"
  else .ok (List.replicate ((rowCount + 7) / 8) 0xFF)

/-- What a scan keeps of a column: `nativeValidity`, the bytes from `nativeValueCursor` to
`nativeValueEnd`, and `nativeVecRawLen`. -/
structure LoadedColumn where
  validity : List Byte
  stream : List Byte
  vecRawLen : Option (List ℕ)

/-- The bitmap of a chunk, stored or not. -/
def columnValidity (attnum groupNumber rowCount : ℕ) (r : FlushColumnResult) :
    Except Failure (List Byte) :=
  if 0 < chunkValidityBytes r.descriptor ((rowCount + 7) / 8) then
    .ok (r.chunk.take (chunkValidityBytes r.descriptor ((rowCount + 7) / 8)))
  else allPresentBits r.descriptor attnum groupNumber rowCount

/-- One chunk in the loop of `pgcolumnar_native_load_group`. -/
def loadColumn (codec : BlockCodec) (att : Attribute) (fill : ℕ → Byte)
    (attnum groupNumber rowCount : ℕ) (skipVec : ℕ → Bool) (r : FlushColumnResult) :
    Except Failure LoadedColumn := do
  let bytes := chunkValidityBytes r.descriptor ((rowCount + 7) / 8)
  let validity ← columnValidity attnum groupNumber rowCount r
  if r.descriptor = [0] then return ⟨validity, r.chunk.drop bytes, none⟩
  else
    let len ← chunkValueBytes r.chunk.length bytes attnum
    let d ← nativeDecodeChunk codec att fill ((r.chunk.drop bytes).take len) r.descriptor
      r.blockCodec skipVec
    return ⟨validity, d.raw, some d.vecRawLen⟩

/-- `pgcolumnar_row_read_column` for a column of the group: the row's value, and the cursor
after it. -/
def rowReadColumn (att : Attribute) (validity : List Byte) (row : ℕ) (cursor : List Byte) :
    Except Failure (Option (List Byte) × List Byte) :=
  if bitAt validity row then
    match decodeValue att cursor with
    | .error f => .error (.fault f)
    | .ok (v, rest) => .ok (some v, rest)
  else .ok (none, cursor)

/-- The rows from `row` on. -/
def readRows (att : Attribute) (validity : List Byte) :
    ℕ → ℕ → List Byte → Except Failure (List (Option (List Byte)))
  | _, 0, _ => .ok []
  | row, n + 1, cursor =>
    match rowReadColumn att validity row cursor with
    | .error f => .error f
    | .ok (v, rest) =>
      match readRows att validity (row + 1) n rest with
      | .error f => .error f
      | .ok vs => .ok (v :: vs)

/-- A column of a row group, read from its page. -/
def readColumn (codec : BlockCodec) (att : Attribute) (fill : ℕ → Byte)
    (attnum groupNumber rowCount : ℕ) (r : FlushColumnResult) :
    Except Failure (List (Option (List Byte))) :=
  match loadColumn codec att fill attnum groupNumber rowCount (fun _ => false) r with
  | .error f => .error f
  | .ok c => readRows att c.validity 0 rowCount c.stream

/-! ### What is recovered -/

/-- The bytes of a region, compressed or as they are. -/
def StoredAs (codec : BlockCodec) (level : ℤ) (region data : List Byte) :
    Option CompressionType → Prop
  | none => data = region
  | some t => codec.compress t level region = some data

/-- The page of a column is read back to its rows; the bitmap is left out exactly if no row
is null; and the lengths of the descriptor are those of the bytes that were stored. -/
structure RoundTrip (codec : BlockCodec) (opts : FlushOptions) (att : Attribute)
    (fill : ℕ → Byte) (attnum groupNumber : ℕ) (rows : List (Option (List Byte)))
    (r : FlushColumnResult) : Prop where
  read : readColumn codec att fill attnum groupNumber rows.length r = .ok rows
  elided : omitsValidity r.descriptor = true ↔ none ∉ rows
  lengths : ∃ d region, readDescriptor r.descriptor = .ok d ∧
    (d.entries.map (·.encLen)).sum = region.length ∧
    StoredAs codec opts.level region
      (r.chunk.drop (chunkValidityBytes r.descriptor ((rows.length + 7) / 8))) r.blockCodec

/-- The encoded streams of a column without a symbol table. -/
def encodedRegion (opts : FlushOptions) {att : Attribute} (vectors : List (VectorBuffer att)) :
    List Byte :=
  vectors.flatMap fun b =>
    match encodeChunk opts.sampleRows att b.valueStream b.valueCount none with
    | .ok best => best.buf
    | .error _ => []

/-- The raw streams are stored in place of the encoded ones. -/
def RawStored (codec : BlockCodec) (opts : FlushOptions) {att : Attribute}
    (vectors : List (VectorBuffer att)) : Prop :=
  opts.compression ≠ none ∧ encodedRegion opts vectors ≠ [] ∧
    rawWins codec opts (encodedRegion opts vectors) (vectors.flatMap (·.valueStream)) = true

/-- The streams fit one allocation, and no vector is stored as runs of a width that the
decoder refuses. -/
def Recoverable (codec : BlockCodec) (opts : FlushOptions) {att : Attribute}
    (vectors : List (VectorBuffer att)) : Prop :=
  (vectors.map (·.valueStream.length)).sum ≤ maxAllocSize ∧
    (att.attlen = 1 ∨ att.attlen = 2 ∨ att.attlen = 4 ∨ att.attlen = 8 ∨ att.attlen = -1 ∨
      (∀ b ∈ vectors,
        ¬ RleStored att.attlen.toNat b.values (chunkSample att opts.sampleRows b.values)) ∨
      RawStored codec opts vectors)

/-! ### One vector -/

theorem appendBytes_eq_ok {buf bytes out : List Byte} : appendBytes buf bytes = .ok out ↔
      out = buf ++ bytes ∧ buf.length + bytes.length < maxAllocSize := by
  unfold appendBytes
  split
  · next h => exact iff_of_false nofun fun hout => by omega
  · next h => exact ⟨fun hout => ⟨(Except.ok.inj hout).symm, by omega⟩, fun hout => hout.1 ▸ rfl⟩

theorem bind_eq_ok {α β : Type} {x : Except Failure α} {f : α → Except Failure β} {y : β} :
    (x >>= f) = .ok y ↔ ∃ a, x = .ok a ∧ f a = .ok y := by
  cases x <;> simp [bind, Except.bind]

theorem ofFault_eq_ok {α : Type} {x : Except Fault α} {a : α} : ofFault x = .ok a ↔ x = .ok a := by
  cases x <;> simp [ofFault]

theorem code_toNat (t : EncodingType) : ((t.code.toNat : ℕ) : ℤ) = t.code := by
  cases t <;> rfl

theorem code_toNat_lt (t : EncodingType) : t.code.toNat < 2 ^ 8 := by
  cases t <;> decide

namespace VectorBuffer

variable {att : Attribute} (b : VectorBuffer att)

theorem isStored {v : List Byte} (hv : v ∈ b.values) : IsStored att v := by
  obtain ⟨o, hmem, ho⟩ := mem_filterMap.mp hv
  exact b.stored v (ho ▸ hmem)

theorem valueCount_le : b.valueCount ≤ b.valueStream.length :=
  length_le_length_flatten fun _ hv => (b.isStored hv).value.length_pos

theorem valueStream_lt : b.valueStream.length < maxAllocSize := b.fits

theorem splitValues_valueStream : splitValues att b.valueCount b.valueStream = b.values :=
  splitValues_flatten fun _ hv => (b.isStored hv).value

/-- A stream with a value in it is one the encoders accept. -/
theorem wellFormedStream (hne : b.values ≠ []) :
    WellFormedStream att b.valueCount b.valueStream := by
  have hlt := b.valueStream_lt
  have hmax : maxAllocSize < 2 ^ 32 := by decide
  refine ⟨?_, by omega⟩
  obtain ⟨v, hv⟩ := exists_mem_of_ne_nil _ hne
  rcases (b.isStored hv).value with ⟨hpos, -⟩ | ⟨hneg, -⟩
  · refine .inl ⟨hpos, ?_⟩
    have hlen : ∀ u ∈ b.values, u.length = att.attlen.toNat := by
      intro u hu
      rcases (b.isStored hu).value with ⟨-, hu⟩ | ⟨hu, -⟩
      · exact hu
      · omega
    show b.values.flatten.length = _
    rw [length_flatten, map_congr_left hlen, map_const', sum_replicate]
    rfl
  · refine .inr ⟨hneg, b.values, rfl, fun u hu => ?_, rfl⟩
    rcases (b.isStored hu).value with ⟨hu, -⟩ | ⟨-, hu⟩
    · omega
    · exact hu

theorem valueStream_pos (hne : b.values ≠ []) : 0 < b.valueStream.length := by
  have := b.valueCount_le
  have := length_pos_of_ne_nil hne
  unfold valueCount at *
  omega

end VectorBuffer

section Part

variable {opts : FlushOptions} {att : Attribute} {table : Option (List Byte)} {b : VectorBuffer att}
  {p : StoredVector}

/-- What the loop appends for a vector. -/
def IsPart (opts : FlushOptions) (table : Option (List Byte)) (b : VectorBuffer att)
    (p : StoredVector) : Prop :=
  ∃ best, encodeChunk opts.sampleRows att b.valueStream b.valueCount table = .ok best ∧
    p = ⟨best.code.code.toNat, b.valueCount, best.buf, b.valueStream⟩

/-- What it appends of the raw stream. -/
def rawPart (b : VectorBuffer att) : StoredVector :=
  ⟨EncodingType.none.code.toNat, b.valueCount, b.valueStream, b.valueStream⟩

theorem rawPart_decodes (b : VectorBuffer att) (table : Option (List Byte)) :
    (rawPart b).Decodes att table := by
  intro _
  have hcount := b.valueCount_le
  have hlt := b.valueStream_lt
  have hmax : maxAllocSize < 2 ^ 32 := by decide
  exact Best.decodes_raw (show b.valueCount < 2 ^ 32 by omega) b.valueStream table

/-- The table is one that was built for the chunk. -/
def IsBuilt (att : Attribute) (table : Option (List Byte)) : Prop :=
  ∀ t, table = some t → ∃ corpus, fsstBuildChunkTable att corpus = .ok (some t)

/-- The vector is stored as runs of a width that the decoder refuses. -/
def Refused (opts : FlushOptions) (b : VectorBuffer att) : Prop :=
  0 < att.attlen ∧ ¬ IntWidth att.attlen.toNat ∧
    RleStored att.attlen.toNat b.values (chunkSample att opts.sampleRows b.values)

theorem values_ne_nil_of_rleStored
    (hrle : RleStored att.attlen.toNat b.values (chunkSample att opts.sampleRows b.values)) :
    b.values ≠ [] := by
  intro hnil
  have hsample : chunkSample att opts.sampleRows ([] : List (List Byte)) = none := by
    simp [chunkSample, buildSample]
  rw [hnil, hsample] at hrle
  simp [RleStored, RleFits] at hrle

theorem IsPart.code_eq_rle_iff {best : Best} (hne : b.values ≠ []) (hpos : 0 < att.attlen)
    (hw : ¬ IntWidth att.attlen.toNat)
    (hbest : encodeChunk opts.sampleRows att b.valueStream b.valueCount table = .ok best) :
    best.code = .rle ↔
      RleStored att.attlen.toNat b.values (chunkSample att opts.sampleRows b.values) := by
  rw [encodeChunk_code_eq_rle_iff (b.wellFormedStream hne) hpos hw hbest, b.splitValues_valueStream]

/-- A vector that is not refused decodes. -/
theorem IsPart.decodes (hp : IsPart opts table b p) (htable : IsBuilt att table)
    (hnot : ¬ Refused opts b) : p.Decodes att table := by
  obtain ⟨best, hbest, rfl⟩ := hp
  intro hlen
  have hne : b.values ≠ [] := by
    intro hnil
    simp [VectorBuffer.valueStream, hnil] at hlen
  obtain ⟨best', hbest', hcases⟩ :=
    encodeChunk_decodes (b.wellFormedStream hne) htable opts.sampleRows
  rw [hbest] at hbest'
  cases hbest'
  rcases hcases with hdec | ⟨hcode, hpos, hw⟩
  · show decodeChunk best.buf ((best.code.code.toNat : ℕ) : ℤ) att _ _ table = _
    rw [code_toNat]
    exact hdec
  · exact absurd ⟨hpos, hw, (IsPart.code_eq_rle_iff hne hpos hw hbest).mp hcode⟩ hnot

/-- A vector that is refused fails to decode. -/
theorem IsPart.fails (hp : IsPart opts table b p) (href : Refused opts b) : 0 < p.raw.length ∧
      ∃ f, decodeChunk p.enc p.type att p.valueCount p.raw.length table = .error f := by
  obtain ⟨best, hbest, rfl⟩ := hp
  obtain ⟨hpos, hw, hrle⟩ := href
  have hne := values_ne_nil_of_rleStored hrle
  have hwf := b.wellFormedStream hne
  have hwidth : att.attlen ≠ 1 ∧ att.attlen ≠ 2 ∧ att.attlen ≠ 4 ∧ att.attlen ≠ 8 := by
    unfold IntWidth at hw
    omega
  refine ⟨b.valueStream_pos hne, .corrupt "fixed-width encoding on a non-fixed-width column", ?_⟩
  show decodeChunk best.buf ((best.code.code.toNat : ℕ) : ℤ) att b.valueCount _ table = _
  rw [code_toNat, decodeChunk_eq hwf.count_lt, (IsPart.code_eq_rle_iff hne hpos hw hbest).mpr hrle]
  simp only [checkLengths, if_pos hwidth]
  rfl

end Part

theorem forall₂_mem_right {β γ : Type} {R : β → γ → Prop} {as : List β} {bs : List γ}
    (h : List.Forall₂ R as bs) {b : γ} (hb : b ∈ bs) : ∃ a ∈ as, R a b := by
  induction h with
  | nil => cases hb
  | cons hr _ ih =>
    rcases mem_cons.mp hb with rfl | hmem
    · exact ⟨_, mem_cons_self, hr⟩
    · obtain ⟨a, ha, hab⟩ := ih hmem
      exact ⟨a, mem_cons_of_mem _ ha, hab⟩

theorem forall₂_mem_left {β γ : Type} {R : β → γ → Prop} {as : List β} {bs : List γ}
    (h : List.Forall₂ R as bs) {a : β} (ha : a ∈ as) : ∃ b ∈ bs, R a b :=
  forall₂_mem_right h.flip ha

/-! ### The loop over the vectors -/

section Loop

variable {opts : FlushOptions} {att : Attribute} {table : Option (List Byte)} {s s' : Regions}

theorem flushVector_eq_ok {b : VectorBuffer att} (h : flushVector opts table s b = .ok s') :
    ∃ p, IsPart opts table b p ∧
      s'.encoded = s.encoded ++ p.enc ∧ s'.encoded.length < maxAllocSize ∧
      s'.desc = s.desc ++ putEntry p.entry ∧
      (opts.postCodecChoice = true → s'.rawRegion = s.rawRegion ++ b.valueStream ∧
        s'.rawRegion.length < maxAllocSize ∧
          s'.rawDesc = s.rawDesc ++ putEntry (rawPart b).entry) := by
  unfold flushVector at h
  obtain ⟨best, hbest, h⟩ := bind_eq_ok.mp h
  obtain ⟨encoded, henc, h⟩ := bind_eq_ok.mp h
  obtain ⟨desc, hdesc, h⟩ := bind_eq_ok.mp h
  rw [appendBytes_eq_ok] at henc hdesc
  have hpart : IsPart opts table b ⟨best.code.code.toNat, b.valueCount, best.buf, b.valueStream⟩ :=
    ⟨best, ofFault_eq_ok.mp hbest, rfl⟩
  have hlen : encoded.length < maxAllocSize := by
    rw [henc.1, length_append]
    exact henc.2
  refine ⟨_, hpart, ?_⟩
  by_cases hpost : opts.postCodecChoice = true
  · rw [if_pos hpost] at h
    obtain ⟨rawRegion, hraw, h⟩ := bind_eq_ok.mp h
    obtain ⟨rawDesc, hrdesc, h⟩ := bind_eq_ok.mp h
    rw [appendBytes_eq_ok] at hraw hrdesc
    cases h
    refine ⟨henc.1, hlen, hdesc.1, fun _ => ⟨hraw.1, ?_, hrdesc.1⟩⟩
    rw [hraw.1, length_append]
    exact hraw.2
  · rw [if_neg hpost] at h
    cases h
    exact ⟨henc.1, hlen, hdesc.1, fun h => absurd h hpost⟩

/-- The regions after the loop. -/
theorem flushVectors_eq_ok {vectors : List (VectorBuffer att)}
    (h : vectors.foldlM (flushVector opts table) s = .ok s') :
    ∃ parts, List.Forall₂ (IsPart opts table) vectors parts ∧
      s'.encoded = s.encoded ++ parts.flatMap (·.enc) ∧
      (s.encoded.length < maxAllocSize → s'.encoded.length < maxAllocSize) ∧
      s'.desc = s.desc ++ (parts.map (·.entry)).flatMap putEntry ∧
      (opts.postCodecChoice = true → s'.rawRegion = s.rawRegion ++ vectors.flatMap (·.valueStream) ∧
        (s.rawRegion.length < maxAllocSize → s'.rawRegion.length < maxAllocSize) ∧
        s'.rawDesc = s.rawDesc ++ ((vectors.map rawPart).map (·.entry)).flatMap putEntry) := by
  induction vectors generalizing s with
  | nil =>
    cases h
    exact ⟨[], .nil, by simp, id, by simp, fun _ => ⟨by simp, id, by simp⟩⟩
  | cons b vectors ih =>
    rw [foldlM_cons] at h
    obtain ⟨s1, hs1, h⟩ := bind_eq_ok.mp h
    obtain ⟨p, hp, henc, hlen, hdesc, hraw⟩ := flushVector_eq_ok hs1
    obtain ⟨parts, hparts, henc', hlen', hdesc', hraw'⟩ := ih h
    refine ⟨p :: parts, .cons hp hparts, ?_, fun _ => hlen' hlen, ?_, fun hpost => ?_⟩
    · rw [henc', henc, flatMap_cons, append_assoc]
    · rw [hdesc', hdesc, map_cons, flatMap_cons, append_assoc]
    · obtain ⟨hr, hrlen, hrd⟩ := hraw hpost
      obtain ⟨hr', hrlen', hrd'⟩ := hraw' hpost
      refine ⟨?_, fun _ => hrlen' hrlen, ?_⟩
      · rw [hr', hr, flatMap_cons, append_assoc]
      · rw [hrd', hrd, map_cons, map_cons, flatMap_cons, append_assoc]

end Loop

/-! ### The layout of the page -/

section Layout

variable {codec : BlockCodec} {opts : FlushOptions} {att : Attribute}

/-- A table that the flush uses was built for the chunk. -/
theorem isBuilt_chunkTable {memo' : FsstMemo} {memo : FsstMemo} {streams : List (List Byte)}
    {table : Option (List Byte)} (h : chunkTable opts memo att streams = .ok (table, memo')) :
    IsBuilt att table ∧ (att.attlen ≠ -1 → table = none) := by
  unfold chunkTable at h
  by_cases hvar : att.attlen = -1
  · rw [if_pos hvar] at h
    obtain ⟨⟨corpus, sampled⟩, -, h⟩ := bind_eq_ok.mp h
    obtain ⟨built, hbuilt, h⟩ := bind_eq_ok.mp h
    refine ⟨fun t ht => ?_, fun hne => absurd hvar hne⟩
    have hkeep : (keepTable opts memo corpus built).1 = some t := by
      rw [Except.ok.inj h]
      exact ht
    have hsome : built = some t := by
      unfold keepTable at hkeep
      cases built with
      | none =>
        dsimp only at hkeep
        split at hkeep <;> cases hkeep
      | some t' =>
        dsimp only at hkeep
        split at hkeep
        · dsimp only at hkeep
          split_ifs at hkeep
          exact hkeep
        · split_ifs at hkeep
          exact hkeep
    rw [hsome] at hbuilt
    unfold buildTable at hbuilt
    split at hbuilt
    · exact ⟨_, ofFault_eq_ok.mp hbuilt⟩
    · cases hbuilt
  · rw [if_neg hvar] at h
    cases h
    exact ⟨nofun, fun _ => rfl⟩

/-- The table as the reader finds it in the descriptor. -/
theorem IsBuilt.shared {table : Option (List Byte)} (h : IsBuilt att table) :
    (if 0 < (table.getD []).length then some (table.getD []) else none) = table := by
  cases table with
  | none => rfl
  | some t =>
    obtain ⟨corpus, hcorpus⟩ := h t rfl
    obtain ⟨syms, -, -, rfl⟩ := exists_of_fsstBuildChunkTable hcorpus
    exact if_pos (by simp [fsstSerialize])

theorem storedAs_compressValueStream (codec : BlockCodec) (requested : Option CompressionType)
    (level : ℤ) (raw : List Byte) :
    StoredAs codec level raw (compressValueStream codec requested level raw).2
      (compressValueStream codec requested level raw).1 := by
  unfold compressValueStream
  split
  · next hnil => exact hnil.symm
  · cases requested with
    | none => rfl
    | some t =>
      dsimp only
      cases hout : codec.compress t level raw with
      | none => rfl
      | some out => exact hout

/-- The block codec is undone. -/
theorem encRegion_of_storedAs {level : ℤ} {region data : List Byte}
    {blockCodec : Option CompressionType} (h : StoredAs codec level region data blockCodec)
    (hlt : region.length < 2 ^ 32) :
    encRegion codec blockCodec data region.length = .ok region := by
  unfold encRegion
  cases blockCodec with
  | none =>
    have hdata : data = region := h
    rw [hdata]
    exact if_neg (by simp)
  | some t =>
    rw [Nat.mod_eq_of_lt hlt]
    exact codec.decompress_compress t level region data h

/-- What a flush has laid out: the bitmap and the values region, and the descriptor of the
vectors in it. -/
structure Layout (codec : BlockCodec) (opts : FlushOptions) (vectors : List (VectorBuffer att))
    (r : FlushColumnResult) (flags : ℕ) (bitmap data : List Byte) (parts : List StoredVector)
    (table : Option (List Byte)) : Prop where
  validity : validityRegion (vectors.flatMap (·.rows)) = .ok (flags, bitmap)
  chunk : r.chunk = bitmap ++ data
  chunk_lt : r.chunk.length < maxAllocSize
  descriptor : r.descriptor = putDescriptor flags (parts.map (·.entry)) (table.getD [])
  descriptor_lt : r.descriptor.length < maxAllocSize
  stored : StoredAs codec opts.level (parts.flatMap (·.enc)) data r.blockCodec
  region_lt : (parts.flatMap (·.enc)).length < maxAllocSize
  built : IsBuilt att table
  parts : List.Forall₂ (fun b p => p.type < 2 ^ 8 ∧ p.valueCount = b.valueCount ∧
    p.raw = b.valueStream) vectors parts

variable {vectors : List (VectorBuffer att)}

theorem encodedRegion_eq {parts : List StoredVector}
    (h : List.Forall₂ (IsPart opts none) vectors parts) :
    encodedRegion opts vectors = parts.flatMap (·.enc) := by
  induction h with
  | nil => rfl
  | cons hp _ ih =>
    obtain ⟨best, hbest, rfl⟩ := hp
    unfold encodedRegion at ih ⊢
    rw [flatMap_cons, flatMap_cons, ih, hbest]

theorem forall₂_rawPart (vectors : List (VectorBuffer att)) :
    List.Forall₂ (fun b p => p.type < 2 ^ 8 ∧ p.valueCount = b.valueCount ∧ p.raw = b.valueStream)
      vectors (vectors.map rawPart) := by
  rw [forall₂_map_right_iff]
  exact forall₂_same.mpr fun b _ => ⟨code_toNat_lt .none, rfl, rfl⟩

theorem flatMap_enc_rawPart (vectors : List (VectorBuffer att)) :
    (vectors.map rawPart).flatMap (·.enc) = vectors.flatMap (·.valueStream) := by
  rw [flatMap_map]
  rfl

theorem postCodecChoice_of_rawWins {encoded rawRegion : List Byte}
    (h : rawWins codec opts encoded rawRegion = true) : opts.postCodecChoice = true := by
  unfold rawWins at h
  rw [Bool.and_eq_true, Bool.and_eq_true] at h
  exact h.1.1

/-- The encoded streams, or the raw ones if they win. -/
theorem finalRegion_cases (codec : BlockCodec) (opts : FlushOptions) (s : Regions) :
    StoredAs codec opts.level s.encoded (finalRegion codec opts s).chunk
          (finalRegion codec opts s).blockCodec ∧
        (finalRegion codec opts s).descriptor = s.desc ∧
        ¬ (opts.compression ≠ none ∧ s.encoded ≠ [] ∧
          rawWins codec opts s.encoded s.rawRegion = true) ∨
      StoredAs codec opts.level s.rawRegion (finalRegion codec opts s).chunk
          (finalRegion codec opts s).blockCodec ∧
        (finalRegion codec opts s).descriptor = s.rawDesc ∧
        (opts.compression ≠ none ∧ s.encoded ≠ [] ∧
          rawWins codec opts s.encoded s.rawRegion = true) := by
  unfold finalRegion
  by_cases hnone : opts.compression = none ∨ s.encoded = []
  · rw [if_pos hnone]
    exact .inl ⟨rfl, rfl, fun h => hnone.elim h.1 h.2.1⟩
  · rw [if_neg hnone]
    by_cases hwins : rawWins codec opts s.encoded s.rawRegion = true
    · rw [if_pos hwins]
      exact .inr ⟨storedAs_compressValueStream codec _ _ _, rfl, (not_or.mp hnone).1,
        (not_or.mp hnone).2, hwins⟩
    · rw [if_neg hwins]
      exact .inl ⟨storedAs_compressValueStream codec _ _ _, rfl, fun h => hwins h.2.2⟩

/-- **The layout of a page**: the vectors as they are encoded, or the raw streams. -/
theorem exists_layout {memo' : FsstMemo} {memo : FsstMemo} {r : FlushColumnResult}
    (h : flushOneColumn codec opts memo att false vectors = .ok (some r, memo')) :
    ∃ flags bitmap data parts table, Layout codec opts vectors r flags bitmap data parts table ∧
      (List.Forall₂ (IsPart opts table) vectors parts ∧
          (att.attlen ≠ -1 → ¬ RawStored codec opts vectors) ∨
        parts = vectors.map rawPart ∧ (att.attlen ≠ -1 → RawStored codec opts vectors)) := by
  unfold flushOneColumn at h
  rw [if_neg (by simp)] at h
  obtain ⟨⟨flags, bitmap⟩, hvalidity, h⟩ := bind_eq_ok.mp h
  obtain ⟨⟨table, memo1⟩, htable, h⟩ := bind_eq_ok.mp h
  obtain ⟨s, hs, h⟩ := bind_eq_ok.mp h
  obtain ⟨desc, hdesc, h⟩ := bind_eq_ok.mp h
  obtain ⟨rawDesc, hrawDesc, h⟩ := bind_eq_ok.mp h
  obtain ⟨chunk, hchunk, h⟩ := bind_eq_ok.mp h
  rw [appendBytes_eq_ok] at hdesc hrawDesc hchunk
  obtain ⟨hbuilt, hnone⟩ := isBuilt_chunkTable htable
  obtain ⟨parts, hparts, henc, henclt, hpdesc, hraw⟩ := flushVectors_eq_ok hs
  have hregion : s.encoded = parts.flatMap (·.enc) := henc
  have hlen : parts.length = vectors.length := hparts.length_eq.symm
  have hout : desc = putDescriptor flags (parts.map (·.entry)) (table.getD []) := by
    rw [hdesc.1, hpdesc, putDescriptor, length_map, hlen]
  have hshape : List.Forall₂ (fun b p => p.type < 2 ^ 8 ∧ p.valueCount = b.valueCount ∧
      p.raw = b.valueStream) vectors parts := by
    refine hparts.imp fun b p hp => ?_
    obtain ⟨best, -, rfl⟩ := hp
    exact ⟨code_toNat_lt best.code, rfl, rfl⟩
  cases h
  have hchunklt : chunk.length < maxAllocSize := by
    rw [hchunk.1, length_append]
    exact hchunk.2
  -- the encoded region or the raw one, whichever is stored
  rcases finalRegion_cases codec opts { s with desc := desc, rawDesc := rawDesc } with
    ⟨hstored, hfdesc, hwins⟩ | ⟨hstored, hfdesc, hwins⟩
  · refine ⟨flags, bitmap, _, parts, table, ⟨hvalidity, hchunk.1, hchunklt, hfdesc.trans hout, ?_,
      hregion ▸ hstored, hregion ▸ henclt (show 0 < maxAllocSize by decide), hbuilt, hshape⟩, .inl
        ⟨hparts, ?_⟩⟩
    · show (finalRegion codec opts _).descriptor.length < maxAllocSize
      rw [hfdesc, hdesc.1, length_append]
      exact hdesc.2
    · intro hne hraws
      rw [hnone hne] at hparts
      obtain ⟨hcomp, hnil, hw⟩ := hraws
      have hrr := (hraw (postCodecChoice_of_rawWins hw)).1
      rw [encodedRegion_eq hparts, ← hregion] at hnil hw
      refine hwins ⟨hcomp, hnil, ?_⟩
      rw [show s.rawRegion = vectors.flatMap (·.valueStream) from hrr]
      exact hw
  · obtain ⟨hcomp, hnil, hw⟩ := hwins
    obtain ⟨hrr, hrrlt, hrd⟩ := hraw (postCodecChoice_of_rawWins hw)
    have hrawRegion : s.rawRegion = vectors.flatMap (·.valueStream) := hrr
    have hrout : rawDesc = putDescriptor flags ((vectors.map rawPart).map (·.entry)) [] := by
      rw [hrawDesc.1, hrd, putDescriptor, length_map, length_map]
    refine ⟨flags, bitmap, _, vectors.map rawPart, none, ⟨hvalidity, hchunk.1, hchunklt,
      hfdesc.trans hrout, ?_, ?_, ?_, (fun _ h => by cases h), forall₂_rawPart vectors⟩, .inr
        ⟨rfl, ?_⟩⟩
    · show (finalRegion codec opts _).descriptor.length < maxAllocSize
      rw [hfdesc, hrawDesc.1, length_append]
      exact hrawDesc.2
    · rw [flatMap_enc_rawPart, ← hrawRegion]
      exact hstored
    · rw [flatMap_enc_rawPart, ← hrawRegion]
      exact hrrlt (show 0 < maxAllocSize by decide)
    · intro hne
      rw [hnone hne] at hparts
      refine ⟨hcomp, ?_, ?_⟩
      · rw [encodedRegion_eq hparts, ← hregion]
        exact hnil
      · rw [encodedRegion_eq hparts, ← hregion, ← hrawRegion]
        exact hw

end Layout

/-! ### The validity bits -/

section Validity

variable {rows : List (Option (List Byte))}

theorem length_validityBitmap (rows : List (Option (List Byte))) :
    (validityBitmap rows).length = (rows.length + 7) / 8 := by
  unfold validityBitmap
  rw [length_foldl_setBit, length_zeros]

theorem bitAt_validityBitmap {r : ℕ} (hr : r < rows.length) :
    bitAt (validityBitmap rows) r = (rows.getD r none).isSome := by
  unfold validityBitmap
  rw [bitAt_foldl_setBit, bitAt_zeros, Bool.false_or]
  · rw [Bool.eq_iff_iff, decide_eq_true_eq, mem_filter, mem_range]
    exact and_iff_right hr
  · intro k hk
    rw [length_zeros]
    have := mem_range.mp (mem_filter.mp hk).1
    omega

theorem bitAt_allPresent {need r : ℕ} (hr : r < 8 * need) :
    bitAt (List.replicate need 0xFF) r = true := by
  unfold bitAt
  rw [getD_eq_getElem?_getD, getElem?_replicate, if_pos (by omega), Option.getD_some]
  have h8 : r % 8 < 8 := Nat.mod_lt _ (by decide)
  interval_cases r % 8 <;> rfl

/-- The two forms of the validity region. -/
theorem validityRegion_eq_ok {flags : ℕ} {bitmap : List Byte}
    (h : validityRegion rows = .ok (flags, bitmap)) :
    (rows.length + 7) / 8 ≤ maxAllocSize ∧ (none ∉ rows ∧ flags = 1 ∧ bitmap = [] ∨
        none ∈ rows ∧ flags = 0 ∧ bitmap = validityBitmap rows) := by
  unfold validityRegion at h
  have hall : rows.countP (·.isSome) = rows.length ↔ none ∉ rows := by
    rw [countP_eq_length]
    constructor
    · intro hsome hmem
      cases hsome none hmem
    · intro hnone o ho
      cases o with
      | none => exact absurd ho hnone
      | some v => rfl
  split at h
  · cases h
  · next hle =>
    refine ⟨by omega, ?_⟩
    split at h
    · next hcount =>
      cases h
      exact .inl ⟨hall.mp hcount, rfl, rfl⟩
    · next hcount =>
      obtain ⟨chunk, hchunk, h⟩ := bind_eq_ok.mp h
      cases h
      exact .inr ⟨not_not.mp fun h => hcount (hall.mpr h), rfl, (appendBytes_eq_ok.mp hchunk).1⟩

/-- Walking the rows gives each its value. -/
theorem readRows_eq {att : Attribute} {validity : List Byte} (row : ℕ)
    (hbits : ∀ i < rows.length, bitAt validity (row + i) = (rows.getD i none).isSome)
    (hstored : ∀ v, some v ∈ rows → IsStored att v) (rest : List Byte) :
    readRows att validity row rows.length ((rows.filterMap id).flatten ++ rest) = .ok rows := by
  induction rows generalizing row with
  | nil => rfl
  | cons o rows ih =>
    have hbit : bitAt validity row = o.isSome := hbits 0 (by simp)
    have ih' := ih (row + 1) (fun i hi => by
        rw [show row + 1 + i = row + (i + 1) by omega]
        exact hbits (i + 1) (by simpa using hi))
      fun v hv => hstored v (mem_cons_of_mem o hv)
    rw [length_cons, readRows]
    unfold rowReadColumn
    rw [hbit]
    cases o with
    | none =>
      rw [if_neg (by simp)]
      dsimp only
      rw [filterMap_cons_none rfl, ih']
    | some v =>
      have hvals : (some v :: rows).filterMap id = v :: rows.filterMap id := rfl
      rw [if_pos (show (some v).isSome = true from rfl), hvals, flatten_cons, append_assoc,
        decodeValue_append (hstored v mem_cons_self)]
      dsimp only
      rw [ih']

end Validity

/-! ### The page is read back -/

namespace Layout

variable {codec : BlockCodec} {opts : FlushOptions} {att : Attribute}
  {vectors : List (VectorBuffer att)} {r : FlushColumnResult} {flags : ℕ} {bitmap data : List Byte}
  {parts : List StoredVector} {table : Option (List Byte)}

theorem raws (h : Layout codec opts vectors r flags bitmap data parts table) :
    parts.map (·.raw) = vectors.map (·.valueStream) := by
  have hparts := h.parts
  clear h
  induction hparts with
  | nil => rfl
  | cons hp _ ih => rw [map_cons, map_cons, ih, hp.2.2]

theorem valueCounts (h : Layout codec opts vectors r flags bitmap data parts table) :
    parts.map (·.valueCount) = vectors.map (·.valueCount) := by
  have hparts := h.parts
  clear h
  induction hparts with
  | nil => rfl
  | cons hp _ ih => rw [map_cons, map_cons, ih, hp.2.1]

theorem exists_buffer (h : Layout codec opts vectors r flags bitmap data parts table)
    {p : StoredVector} (hp : p ∈ parts) :
    ∃ b : VectorBuffer att, p.type < 2 ^ 8 ∧ p.valueCount = b.valueCount ∧
      p.raw = b.valueStream := by
  obtain ⟨b, -, hb⟩ := forall₂_mem_right h.parts hp
  exact ⟨b, hb⟩

theorem entries_fit (h : Layout codec opts vectors r flags bitmap data parts table) :
    ∀ e ∈ parts.map (·.entry), e.Fits := by
  intro e he
  obtain ⟨p, hp, rfl⟩ := mem_map.mp he
  obtain ⟨b, htype, hcount, hraw⟩ := h.exists_buffer hp
  have hmax : maxAllocSize < 2 ^ 32 := by decide
  have hle := b.valueCount_le
  have hlt := b.valueStream_lt
  have henc : p.enc.length ≤ (parts.flatMap (·.enc)).length := by
    rw [length_flatMap]
    exact single_le_sum (by simp) _ (mem_map.mpr ⟨p, hp, rfl⟩)
  have hreg := h.region_lt
  refine ⟨htype, ?_, ?_, ?_⟩
  · show p.valueCount < _
    omega
  · show p.raw.length < _
    rw [hraw]
    omega
  · show p.enc.length < _
    omega

theorem length_descriptor (h : Layout codec opts vectors r flags bitmap data parts table) :
    parts.length < 2 ^ 32 ∧ (table.getD []).length < 2 ^ 32 := by
  have hlt := h.descriptor_lt
  have hmax : maxAllocSize < 2 ^ 32 := by decide
  rw [h.descriptor, length_putDescriptor, length_map] at hlt
  omega

theorem readDescriptor_eq (h : Layout codec opts vectors r flags bitmap data parts table) :
    readDescriptor r.descriptor = .ok ⟨parts.map (·.entry), table⟩ := by
  have hlen := h.length_descriptor
  rw [h.descriptor, readDescriptor_putDescriptor h.entries_fit (by rw [length_map]; exact hlen.1)
    hlen.2, h.built.shared]

theorem sum_encLen (parts : List StoredVector) :
    ((parts.map (·.entry)).map (·.encLen)).sum = (parts.flatMap (·.enc)).length := by
  rw [map_map, length_flatMap]
  rfl

/-- The values region is decoded vector by vector. -/
theorem nativeDecodeChunk_eq (h : Layout codec opts vectors r flags bitmap data parts table)
    (fill : ℕ → Byte) (skipVec : ℕ → Bool) :
    nativeDecodeChunk codec att fill data r.descriptor r.blockCodec skipVec =
      if maxAllocSize < (vectors.map (·.valueStream.length)).sum then .error .allocSize
      else do
        let d ← ofFault (decodeVectors att table fill skipVec 0 0 (parts.map (·.entry))
          (parts.flatMap (·.enc)))
        return ⟨d.1, vectors.map (·.valueStream.length), d.2⟩ := by
  have hmax : maxAllocSize < 2 ^ 32 := by decide
  have hregion := encRegion_of_storedAs h.stored (by have := h.region_lt; omega)
  have hraw : (parts.map (·.entry)).map (·.rawLen) = vectors.map (·.valueStream.length) := by
    have := congrArg (List.map List.length) h.raws
    rw [map_map, map_map] at this
    rw [map_map]
    exact this
  unfold nativeDecodeChunk
  rw [h.readDescriptor_eq]
  show (encRegion codec r.blockCodec data ((parts.map (·.entry)).map (·.encLen)).sum >>= _) = _
  rw [sum_encLen, hregion]
  show (if maxAllocSize < ((parts.map (·.entry)).map (·.rawLen)).sum then _ else _) = _
  rw [hraw]

theorem filterMap_rows (vectors : List (VectorBuffer att)) :
    ((vectors.flatMap (·.rows)).filterMap id).flatten = (vectors.map (·.valueStream)).flatten := by
  induction vectors with
  | nil => rfl
  | cons b vectors ih =>
    rw [flatMap_cons, filterMap_append, flatten_append, ih, map_cons, flatten_cons]
    rfl

theorem stored_rows {v : List Byte} (hv : some v ∈ vectors.flatMap (·.rows)) : IsStored att v := by
  obtain ⟨b, -, hb⟩ := mem_flatMap.mp hv
  exact b.stored v hb

theorem omitsValidity_eq (h : Layout codec opts vectors r flags bitmap data parts table) :
    omitsValidity r.descriptor = true ↔ none ∉ vectors.flatMap (·.rows) := by
  rw [h.descriptor, omitsValidity_putDescriptor]
  obtain ⟨-, ⟨hnone, rfl, -⟩ | ⟨hnone, rfl, -⟩⟩ := validityRegion_eq_ok h.validity
  · exact iff_of_true rfl hnone
  · exact iff_of_false (by decide) (not_not.mpr hnone)

theorem chunkValidityBytes_eq (h : Layout codec opts vectors r flags bitmap data parts table) :
    chunkValidityBytes r.descriptor (((vectors.flatMap (·.rows)).length + 7) / 8) =
      bitmap.length := by
  unfold chunkValidityBytes
  obtain ⟨-, ⟨hnone, -, rfl⟩ | ⟨hnone, -, rfl⟩⟩ := validityRegion_eq_ok h.validity
  · rw [if_pos (h.omitsValidity_eq.mpr hnone)]
    rfl
  · rw [if_neg fun homits => h.omitsValidity_eq.mp homits hnone, length_validityBitmap]

/-- As many values as rows, when no row is null. -/
theorem sum_valueCount (hnone : none ∉ vectors.flatMap (·.rows)) :
    (vectors.map (·.valueCount)).sum = (vectors.flatMap (·.rows)).length := by
  induction vectors with
  | nil => rfl
  | cons b vectors ih =>
    rw [flatMap_cons, mem_append, not_or] at hnone
    have hcount : b.valueCount = b.rows.length := by
      unfold VectorBuffer.valueCount VectorBuffer.values
      rw [length_filterMap_eq_countP, countP_eq_length]
      intro o ho
      cases o with
      | none => exact absurd ho hnone.1
      | some v => rfl
    rw [map_cons, sum_cons, flatMap_cons, length_append, ih hnone.2, hcount]

/-- The bitmap that the rows are read with. -/
theorem exists_validity (h : Layout codec opts vectors r flags bitmap data parts table)
    (attnum groupNumber : ℕ) :
    ∃ validity, columnValidity attnum groupNumber (vectors.flatMap (·.rows)).length r =
        .ok validity ∧
      ∀ i < (vectors.flatMap (·.rows)).length,
        bitAt validity i = ((vectors.flatMap (·.rows)).getD i none).isSome := by
  have hbytes := h.chunkValidityBytes_eq
  unfold columnValidity
  rw [hbytes]
  obtain ⟨hneed, ⟨hnone, -, rfl⟩ | ⟨hnone, -, rfl⟩⟩ := validityRegion_eq_ok h.validity
  · rw [if_neg (by simp)]
    have htotal : totalValueCount r.descriptor = some (vectors.flatMap (·.rows)).length := by
      rw [h.descriptor, totalValueCount_putDescriptor h.entries_fit
        (by rw [length_map]; exact h.length_descriptor.1), map_map, ← sum_valueCount hnone,
        ← h.valueCounts]
      rfl
    unfold allPresentBits
    rw [if_neg (not_not.mpr htotal), if_neg (by omega)]
    refine ⟨_, rfl, fun i hi => ?_⟩
    rw [bitAt_allPresent (by omega)]
    have hmem : (vectors.flatMap (·.rows)).getD i none ∈ vectors.flatMap (·.rows) := by
      rw [getD_eq_getElem _ _ hi]
      exact getElem_mem hi
    cases ho : (vectors.flatMap (·.rows)).getD i none with
    | none =>
      rw [ho] at hmem
      exact absurd hmem hnone
    | some v => rfl
  · have hpos : 0 < (vectors.flatMap (·.rows)).length := length_pos_of_mem hnone
    rw [if_pos (by rw [length_validityBitmap]; omega), h.chunk, take_left]
    exact ⟨_, rfl, fun i hi => bitAt_validityBitmap hi⟩

theorem loadColumn_eq (h : Layout codec opts vectors r flags bitmap data parts table)
    {attnum groupNumber : ℕ} {validity : List Byte}
    (hv : columnValidity attnum groupNumber (vectors.flatMap (·.rows)).length r = .ok validity)
    (fill : ℕ → Byte) (skipVec : ℕ → Bool) :
    loadColumn codec att fill attnum groupNumber (vectors.flatMap (·.rows)).length skipVec r = (do
      let d ← nativeDecodeChunk codec att fill data r.descriptor r.blockCodec skipVec
      return ⟨validity, d.raw, some d.vecRawLen⟩) := by
  have hmax : maxAllocSize < 2 ^ 32 := by decide
  have hlt := h.chunk_lt
  have hlen : r.chunk.length = bitmap.length + data.length := by
    rw [h.chunk, length_append]
  have hbytes : chunkValueBytes r.chunk.length bitmap.length attnum = .ok data.length := by
    unfold chunkValueBytes
    rw [if_neg (by omega), if_neg (by omega), hlen, Nat.add_sub_cancel_left]
  have hbase : r.descriptor ≠ [0] := by
    intro hdesc
    have := congrArg List.length hdesc
    rw [h.descriptor, length_putDescriptor, length_singleton] at this
    omega
  have hdata : (r.chunk.drop bitmap.length).take data.length = data := by
    rw [h.chunk, drop_left, take_length]
  unfold loadColumn
  rw [hv, h.chunkValidityBytes_eq]
  show (if r.descriptor = [0] then _ else _) = _
  rw [if_neg hbase, hbytes]
  show (nativeDecodeChunk codec att fill ((r.chunk.drop bitmap.length).take data.length)
    r.descriptor r.blockCodec skipVec >>= _) = _
  rw [hdata]

/-- A page is read back exactly if its streams fit and every vector decodes. -/
theorem readColumn_iff (h : Layout codec opts vectors r flags bitmap data parts table)
    (hfail : ∀ p ∈ parts, ¬ p.Decodes att table → 0 < p.raw.length ∧
      ∃ f, decodeChunk p.enc p.type att p.valueCount p.raw.length table = .error f)
    (fill : ℕ → Byte) (attnum groupNumber : ℕ) :
    readColumn codec att fill attnum groupNumber (vectors.flatMap (·.rows)).length r =
        .ok (vectors.flatMap (·.rows)) ↔
      (vectors.map (·.valueStream.length)).sum ≤ maxAllocSize ∧
        ∀ p ∈ parts, p.Decodes att table := by
  obtain ⟨validity, hv, hbits⟩ := h.exists_validity attnum groupNumber
  unfold readColumn
  rw [h.loadColumn_eq hv, h.nativeDecodeChunk_eq]
  by_cases hsize : maxAllocSize < (vectors.map (·.valueStream.length)).sum
  · rw [if_pos hsize]
    exact iff_of_false nofun fun hok => by omega
  · rw [if_neg hsize]
    by_cases hall : ∀ p ∈ parts, p.Decodes att table
    · refine iff_of_true ?_ ⟨by omega, hall⟩
      rw [decodeVectors_eq parts 0 0 fun i p hp _ => hall p (mem_of_getElem? hp), withHoles_none,
        h.raws, ← filterMap_rows]
      have hread := readRows_eq 0 (fun i hi => by rw [Nat.zero_add]; exact hbits i hi)
        (fun v hv => stored_rows hv) []
      rw [append_nil] at hread
      exact hread
    · refine iff_of_false ?_ fun hok => hall hok.2
      push Not at hall
      obtain ⟨p, hp, hnot⟩ := hall
      obtain ⟨hpos, f, hf⟩ := hfail p hp hnot
      obtain ⟨f', hf'⟩ : ∃ f', decodeVectors att table fill (fun _ => false) 0 0
          (parts.map (·.entry)) (parts.flatMap (·.enc)) = .error f' :=
        decodeVectors_error parts 0 0 hp hpos hf
      rw [hf']
      nofun

end Layout

/-! ### The round trip -/

section RoundTrip

variable {codec : BlockCodec} {opts : FlushOptions} {att : Attribute}
  {vectors : List (VectorBuffer att)}

/-- The accepted widths, and the streams that are not stored as runs. -/
theorem forall_not_refused_iff : (∀ b ∈ vectors, ¬ Refused opts b) ↔
      (att.attlen = 1 ∨ att.attlen = 2 ∨ att.attlen = 4 ∨ att.attlen = 8 ∨ att.attlen = -1 ∨
        ∀ b ∈ vectors,
          ¬ RleStored att.attlen.toNat b.values (chunkSample att opts.sampleRows b.values)) := by
  have hwidth : ∀ b : VectorBuffer att, b.values ≠ [] → 0 < att.attlen ∨ att.attlen = -1 := by
    intro b hne
    obtain ⟨v, hv⟩ := exists_mem_of_ne_nil _ hne
    exact (b.isStored hv).value.imp And.left And.left
  constructor
  · intro hnot
    by_cases haccepted : IntWidth att.attlen.toNat ∨ att.attlen = -1
    · unfold IntWidth at haccepted
      omega
    · rw [not_or] at haccepted
      refine .inr (.inr (.inr (.inr (.inr fun b hb hrle => hnot b hb ⟨?_, haccepted.1, hrle⟩))))
      exact (hwidth b (values_ne_nil_of_rleStored hrle)).resolve_right haccepted.2
  · intro hor b hb href
    obtain ⟨hpos, hw, hrle⟩ := href
    unfold IntWidth at hw
    rcases hor with h | h | h | h | h | h
    · omega
    · omega
    · omega
    · omega
    · omega
    · exact h b hb hrle

/-- **A page is read back exactly if it is recoverable.** -/
theorem roundTrip_iff_recoverable (codec : BlockCodec) (opts : FlushOptions) (memo : FsstMemo)
    (att : Attribute) (vectors : List (VectorBuffer att)) (r : FlushColumnResult) (memo' : FsstMemo)
    (h : flushOneColumn codec opts memo att false vectors = .ok (some r, memo'))
    (fill : ℕ → Byte) (attnum groupNumber : ℕ) :
    RoundTrip codec opts att fill attnum groupNumber (vectors.flatMap (·.rows)) r ↔
      Recoverable codec opts vectors := by
  obtain ⟨flags, bitmap, data, parts, table, hlayout, hcases⟩ := exists_layout h
  have hlengths : ∃ d region, readDescriptor r.descriptor = .ok d ∧
      (d.entries.map (·.encLen)).sum = region.length ∧
      StoredAs codec opts.level region (r.chunk.drop (chunkValidityBytes r.descriptor
        (((vectors.flatMap (·.rows)).length + 7) / 8))) r.blockCodec := by
    refine ⟨_, parts.flatMap (·.enc), hlayout.readDescriptor_eq, Layout.sum_encLen parts, ?_⟩
    rw [hlayout.chunkValidityBytes_eq, hlayout.chunk, drop_left]
    exact hlayout.stored
  have hread : RoundTrip codec opts att fill attnum groupNumber (vectors.flatMap (·.rows)) r ↔
      readColumn codec att fill attnum groupNumber (vectors.flatMap (·.rows)).length r =
        .ok (vectors.flatMap (·.rows)) :=
    ⟨fun hrt => hrt.read, fun hok => ⟨hok, hlayout.omitsValidity_eq, hlengths⟩⟩
  rw [hread]
  unfold Recoverable
  rcases hcases with ⟨hparts, hnraw⟩ | ⟨rfl, hraw⟩
  · -- the vectors as they are encoded
    rw [hlayout.readColumn_iff]
    · refine and_congr_right fun _ => ?_
      have hdec : (∀ p ∈ parts, p.Decodes att table) ↔ ∀ b ∈ vectors, ¬ Refused opts b := by
        constructor
        · intro hall b hb href
          obtain ⟨p, hp, hpart⟩ := forall₂_mem_left hparts hb
          obtain ⟨hpos, f, hf⟩ := hpart.fails href
          have hok := hall p hp hpos
          rw [hf] at hok
          cases hok
        · intro hnot p hp
          obtain ⟨b, hb, hpart⟩ := forall₂_mem_right hparts hp
          exact hpart.decodes hlayout.built (hnot b hb)
      rw [hdec, forall_not_refused_iff]
      by_cases hvar : att.attlen = -1
      · simp [hvar]
      · simp [hvar, hnraw hvar]
    · intro p hp hnot
      obtain ⟨b, -, hpart⟩ := forall₂_mem_right hparts hp
      by_cases href : Refused opts b
      · exact hpart.fails href
      · exact absurd (hpart.decodes hlayout.built href) hnot
  · -- the raw streams
    have hdec : ∀ p ∈ vectors.map rawPart, p.Decodes att table := by
      intro p hp
      obtain ⟨b, -, rfl⟩ := mem_map.mp hp
      exact rawPart_decodes b table
    rw [hlayout.readColumn_iff fun p hp hnot => absurd (hdec p hp) hnot]
    refine and_congr_right fun _ => iff_of_true hdec ?_
    by_cases hvar : att.attlen = -1
    · simp [hvar]
    · simp [hraw hvar]

end RoundTrip

/-! A flush without a block codec. -/

def noCodec : BlockCodec where
  compress _ _ _ := none
  decompress _ _ _ := corrupt "pgcolumnar: codec not built in"
  decompress_compress := nofun

def uncompressed : FlushOptions where
  sampleRows := 2048
  encodeFast := false
  postCodecChoice := true
  verdictReuse := 0
  compression := none
  level := 3
  dictWins _ := false
  helpsCompressed _ _ := true

theorem isStored_of_length {att : Attribute} {v : List Byte} (hpos : 0 < att.attlen)
    (hv : v.length = att.attlen.toNat) : IsStored att v :=
  ⟨.inl ⟨hpos, hv⟩, fun _ => hpos, fun hneg => by omega⟩

/-- Two equal `int4` values and a null between them. -/
def int4Vector : VectorBuffer int4Attribute where
  rows := [some [7, 0, 0, 0], none, some [7, 0, 0, 0]]
  stored v hv := isStored_of_length (by decide) (by simp at hv; subst hv; rfl)
  fits := by decide

theorem roundTrip_int4 : ∃ r, RoundTrip noCodec uncompressed int4Attribute (fun _ => 0) 1 1
    [some [7, 0, 0, 0], none, some [7, 0, 0, 0]] r := by
  have hflush : flushOneColumn noCodec uncompressed ⟨.unknown, 0⟩ int4Attribute false [int4Vector] =
      .ok (some ⟨[5, 7, 0, 0, 0, 7, 0, 0, 0],
        [3, 0, 1, 0, 0, 0, 0, 2, 0, 0, 0, 8, 0, 0, 0, 8, 0, 0, 0, 0, 0, 0, 0], none⟩,
        ⟨.unknown, 0⟩) := by decide +kernel
  exact ⟨_, (roundTrip_iff_recoverable noCodec uncompressed ⟨.unknown, 0⟩ int4Attribute [int4Vector]
    _ _ hflush (fun _ => 0) 1 1).mpr ⟨by decide, .inr (.inr (.inl rfl))⟩⟩

/-- Three equal `uuid` values. -/
def uuidVector : VectorBuffer uuidAttribute where
  rows := List.replicate 3 (some (List.replicate 16 0))
  stored v hv := isStored_of_length (by decide) (by simp at hv; subst hv; rfl)
  fits := by decide

/-- They are stored as one run, and reading the page fails. -/
theorem not_roundTrip_uuid :
    ∃ r, flushOneColumn noCodec uncompressed ⟨.unknown, 0⟩ uuidAttribute false [uuidVector] =
        .ok (some r, ⟨.unknown, 0⟩) ∧
      readColumn noCodec uuidAttribute (fun _ => 0) 1 1 3 r =
        .error (.fault (.corrupt "fixed-width encoding on a non-fixed-width column")) ∧
      ¬ RoundTrip noCodec uncompressed uuidAttribute (fun _ => 0) 1 1
        (List.replicate 3 (some (List.replicate 16 0))) r := by
  refine ⟨⟨3 :: List.replicate 19 0,
    [3, 1, 1, 0, 0, 0, 1, 3, 0, 0, 0, 48, 0, 0, 0, 20, 0, 0, 0, 0, 0, 0, 0], none⟩,
    by decide +kernel, by decide +kernel, fun hrt => ?_⟩
  have hread := hrt.read
  revert hread
  decide +kernel

end PgColumnar.Page
