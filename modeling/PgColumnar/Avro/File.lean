import PgColumnar.Avro.Entry
import PgColumnar.Lib.Numeric

/-!
# The object container file

An Avro file: a header with the schema, then blocks of records, each followed by the sync marker of
the header.  The JSON parser and the inflation are parameters.

## Main definitions

* `avSchemaBuild` — a schema from its JSON text.
* `avReadOcf` — the header, and the blocks one after the other.

## Main results

* `safe_avReadOcf` — any file is read to a result or an error.
* `avro_exact_iff` — exactly when the decoders are exact.
-/

namespace PgColumnar.Avro

open Bytes Cursor Cursor.Parser Iceberg

/-! ### Schemas -/

/-- A `jsonb` value; a number has the scale that it is written with. -/
inductive JsonbValue
  | string (s : CString)
  | numeric (q : ℚ) (dscale : ℕ)
  | array (elems : List JsonbValue)
  | object (pairs : List (CString × JsonbValue))
  | other

/-- `av_jb_field` -/
def avJbField (obj : JsonbValue) (key : String) : Option JsonbValue :=
  match obj with
  | .object pairs => pairs.lookup (ascii key)
  | _ => none

/-- `av_prim_kind` -/
def avPrimKind (name : CString) : Option AvSchema :=
  if name = ascii "null" then some .null
  else if name = ascii "boolean" then some .bool
  else if name = ascii "int" then some .int
  else if name = ascii "long" then some .long
  else if name = ascii "float" then some .float
  else if name = ascii "double" then some .double
  else if name = ascii "bytes" then some (.bytes none)
  else if name = ascii "string" then some .string
  else none

/-- `av_schema_decimal`: the scale of the annotation, when there is a well-formed one. -/
def avSchemaDecimal (tv : JsonbValue) : Option ℕ :=
  match avJbField tv "logicalType" with
  | some (.string name) =>
    if name = ascii "decimal" then
      match avJbField tv "scale" with
      | none => some 0
      | some (.numeric q dscale) =>
        if dscale = 0 ∧ 0 ≤ q ∧ q ≤ 1000 then some ⌊q⌋.toNat else none
      | some _ => none
    else none
  | _ => none

/-- `numeric_int4` -/
def numericInt4 (q : ℚ) : Option ℤ := Numeric.toInt 32 q

/-- The `fixed` of an object. -/
def avSchemaFixed (tv : JsonbValue) : Except AvError AvSchema :=
  match avJbField tv "size" with
  | some (.numeric q _) =>
    match numericInt4 q with
    | some size => if size < 0 then .error .schema else .ok (.fixed size.toNat (avSchemaDecimal tv))
    | none => .error .numericRange
  | _ => .error .schema

/-- `av_schema_build`, with the number of levels that the stack has room for. -/
def avSchemaBuild : ℕ → JsonbValue → Except AvError AvSchema
  | 0, _ => .error .stackDepth
  | depth + 1, tv =>
    match tv with
    | .string name =>
      match avPrimKind name with
      | some s => .ok s
      | none => .error .schema
    | .array elems => do
      let branches ← elems.mapM (avSchemaBuild depth)
      return .union branches
    | .object _ =>
      match avJbField tv "type" with
      | some (.string name) =>
        match avPrimKind name with
        | some (.bytes _) => .ok (.bytes (avSchemaDecimal tv))
        | some s => .ok s
        | none =>
          if name = ascii "record" then
            match avJbField tv "fields" with
            | some (.array elems) => do
              let fields ← elems.mapM fun fe =>
                match avJbField fe "name", avJbField fe "type" with
                | some (.string nm), some ty => do
                  let t ← avSchemaBuild depth ty
                  return (nm, t)
                | _, _ => .error .schema
              return .record fields
            | _ => .error .schema
          else if name = ascii "array" then
            match avJbField tv "items" with
            | some items => do
              let t ← avSchemaBuild depth items
              return .array t
            | none => .error .schema
          else if name = ascii "map" then
            match avJbField tv "values" with
            | some vals => do
              let t ← avSchemaBuild depth vals
              return .map t
            | none => .error .schema
          else if name = ascii "enum" then .ok .enum
          else if name = ascii "fixed" then avSchemaFixed tv
          else .error .schema
      | _ => .error .schema
    | _ => .error .schema

/-! ### The header -/

def avMaxSchema : ℤ := 4 * 1024 * 1024

def avSyncLen : ℤ := 16

structure AvMetadata where
  schemaJson : Option CString
  codec : Option CString

def avMetadataEntry (md : AvMetadata) : AvReader AvMetadata := do
  let key ← avCstring
  let vp ← avBytes
  if key = ascii "avro.schema" then
    if avMaxSchema < vp.length then fail .malformed
    else pure { md with schemaJson := some (textToCstring vp) }
  else if key = ascii "avro.codec" then pure { md with codec := some (textToCstring vp) }
  else pure md

/-- `av_read_metadata` -/
def avReadMetadata : AvReader AvMetadata :=
  avBlocks avMaxObjects (fun _ => 0) avMetadataEntry ⟨none, none⟩

/-- The error that stands for the reader's flag. -/
def onMalformed {α : Type} (e : AvError) (x : AvReader α) : AvReader α := fun buf pos =>
  match x buf pos with
  | .error .malformed => .error e
  | r => r

def avReadHeader : AvReader (CString × Option CString × List Byte) := do
  let md ← avReadMetadata
  let sync ← avTake avSyncLen
  match md.schemaJson with
  | none => fail .malformed
  | some json => pure (json, md.codec, sync)

/-! ### The blocks -/

def avMaxBlock : ℤ := 256 * 1024 * 1024

def avMaxTotal : ℤ := 1024 * 1024 * 1024

section File

variable {α : Type} (inflate : List Byte → Option (List Byte))
  (jsonbIn : CString → Option JsonbValue)

/-- `av_inflate`; `inflate` fails on a block that is corrupt or ends early. -/
def avInflate (block : List Byte) : Except AvError (List Byte) :=
  match inflate block with
  | none => .error .inflate
  | some out => if avMaxBlock < out.length then .error .blockSize else .ok out

/-- The records' bytes, and the bytes decompressed so far. -/
def avBlockBytes (codec : Option CString) (block : List Byte) (total : ℤ) :
    Except AvError (List Byte × ℤ) :=
  if codec = some (ascii "deflate") then
    match avInflate inflate block with
    | .error e => .error e
    | .ok out =>
      if avMaxTotal < total + out.length then .error .totalSize else .ok (out, total + out.length)
  else .ok (block, total)

def avBlockHead : AvReader (ℤ × List Byte) := do
  let count ← avLong
  let bsize ← avLong
  let block ← avTake bsize
  if count < 0 ∨ avMaxObjects < count then fail .malformed else pure (count, block)

/-- The records of a block, read in a buffer of their own. -/
def avBlockRecords (decode : AvReader α) (count : ℤ) (content : List Byte) :
    Except AvError (List α) :=
  match onMalformed .corruptEntry (many (fun out => do
      let e ← decode
      pure (out ++ [e])) count.toNat []) content 0 with
  | .error e => .error e
  | .ok (out, _) => .ok out

def ofExcept (r : Except AvError α) : AvReader α :=
  match r with
  | .error e => fail e
  | .ok a => pure a

/-- A block behind its count and its size. -/
def avBlockBody (codec : Option CString) (sync : List Byte) (decode : AvReader α) (out : List α × ℤ)
    (head : ℤ × List Byte) : AvReader (List α × ℤ) := do
  let (content, total) ← ofExcept (avBlockBytes inflate codec head.2 out.2)
  if avMaxObjects < out.1.length + head.1 then fail .entries
  else do
    let records ← ofExcept (avBlockRecords decode head.1 content)
    let bsync ← onMalformed .syncMarker (avTake avSyncLen)
    if bsync = sync then pure (out.1 ++ records, total) else fail .syncMarker

/-- The loop over the data blocks, up to the end of the file. -/
def avBlockSequence (codec : Option CString) (sync : List Byte) (decode : AvReader α) :
    ℕ → List α × ℤ → AvReader (List α)
  | 0, _ => fail .unfinished
  | fuel + 1, out =>
    withLeft fun left =>
      if left = 0 then pure out.1
      else do
        let head ← onMalformed .dataBlock avBlockHead
        let out ← avBlockBody inflate codec sync decode out head
        avBlockSequence codec sync decode fuel out

def avCheckCodec (codec : Option CString) : Except AvError Unit :=
  match codec with
  | none => .ok ()
  | some name =>
    if name = ascii "null" ∨ name = ascii "deflate" then .ok () else .error (.codec name)

def avFileSchema (depth : ℕ) (json : CString) : Except AvError AvSchema :=
  match jsonbIn json with
  | none => .error .jsonSyntax
  | some root =>
    match avSchemaBuild depth root with
    | .error e => .error e
    | .ok (.record fields) => .ok (.record fields)
    | .ok _ => .error .notRecord

def avMagic : AvReader Unit := do
  let m ← avTake 4
  if m = [79, 98, 106, 1] then pure () else fail .malformed

/-- `av_read_ocf` -/
def avReadOcf (depth : ℕ) (decode : AvSchema → AvReader α) : AvReader (List α) := do
  onMalformed .badMagic avMagic
  let (json, codec, sync) ← onMalformed .header avReadHeader
  ofExcept (avCheckCodec codec)
  let schema ← ofExcept (avFileSchema jsonbIn depth json)
  withLeft fun left => avBlockSequence inflate codec sync (decode schema) (left + 1) ([], 0)

end File

/-! ### Any file -/

/-- A computation that does not fail in a bad way. -/
def Sound {α : Type} (r : Except AvError α) : Prop := ∀ e, r = .error e → ¬ e.Bad

theorem sound_ok {α : Type} (a : α) : Sound (.ok a : Except AvError α) := by
  intro e h
  cases h

theorem sound_error {α : Type} {e : AvError} (h : ¬ e.Bad) :
    Sound (.error e : Except AvError α) := by
  intro e' h'
  cases h'
  exact h

theorem Sound.bind {α β : Type} {r : Except AvError α} {f : α → Except AvError β} (hr : Sound r)
    (hf : ∀ a, Sound (f a)) : Sound (r >>= f) := by
  cases r with
  | error e => exact sound_error (hr e rfl)
  | ok a => exact hf a

theorem Sound.mapM {α β : Type} {f : α → Except AvError β} (hf : ∀ a, Sound (f a)) (xs : List α) :
    Sound (xs.mapM f) := by
  induction xs with
  | nil =>
    rw [List.mapM_nil]
    exact sound_ok []
  | cons a xs ih =>
    rw [List.mapM_cons]
    exact (hf a).bind fun b => ih.bind fun bs => sound_ok _

theorem not_bad_schema : ¬ AvError.schema.Bad := by simp [AvError.Bad]

theorem sound_avSchemaFixed (tv : JsonbValue) : Sound (avSchemaFixed tv) := by
  unfold avSchemaFixed
  split
  · split
    · split
      · exact sound_error not_bad_schema
      · exact sound_ok _
    · exact sound_error (by simp [AvError.Bad])
  · exact sound_error not_bad_schema

/-- A schema is built or refused. -/
theorem sound_avSchemaBuild (depth : ℕ) (tv : JsonbValue) : Sound (avSchemaBuild depth tv) := by
  induction depth generalizing tv with
  | zero => exact sound_error (by simp [AvError.Bad])
  | succ depth ih =>
    have herr : Sound (.error .schema : Except AvError AvSchema) := sound_error not_bad_schema
    have hfield : ∀ fe : JsonbValue, Sound (match avJbField fe "name", avJbField fe "type" with
        | some (.string nm), some ty => do
          let t ← avSchemaBuild depth ty
          return (nm, t)
        | _, _ => .error .schema) := by
      intro fe
      split
      · exact (ih _).bind fun t => sound_ok _
      · exact sound_error not_bad_schema
    cases tv with
    | string name =>
      rw [avSchemaBuild]
      split
      · exact sound_ok _
      · exact herr
    | array elems => exact (Sound.mapM ih elems).bind fun _ => sound_ok _
    | object pairs =>
      rw [avSchemaBuild]
      split
      · split
        · exact sound_ok _
        · exact sound_ok _
        · split_ifs
          · split
            · exact (Sound.mapM hfield _).bind fun _ => sound_ok _
            · exact herr
          · split
            · exact (ih _).bind fun _ => sound_ok _
            · exact herr
          · split
            · exact (ih _).bind fun _ => sound_ok _
            · exact herr
          · exact sound_ok _
          · exact sound_avSchemaFixed _
          · exact herr
      · exact herr
    | numeric | other => exact herr

section File

variable {α : Type} {inflate : List Byte → Option (List Byte)}
  {jsonbIn : CString → Option JsonbValue}

theorem safe_onMalformed {e : AvError} (he : ¬ e.Bad) {x : AvReader α} (h : Safe AvError.Bad x) :
    Safe AvError.Bad (onMalformed e x) := by
  intro buf pos hpos
  obtain ⟨herr, hok⟩ := h buf pos hpos
  unfold SafeAt onMalformed
  split
  · refine ⟨fun e' h' => ?_, fun a p h' => ?_⟩
    · cases h'
      exact he
    · cases h'
  · exact ⟨herr, hok⟩

theorem onMalformed_ok {buf : List Byte} {pos : ℕ} {e : AvError} {x : AvReader α} {r : α × ℕ}
    (h : onMalformed e x buf pos = .ok r) : x buf pos = .ok r := by
  unfold onMalformed at h
  split at h
  · cases h
  · exact h

theorem safe_ofExcept {r : Except AvError α} (h : Sound r) : Safe AvError.Bad (ofExcept r) := by
  cases r with
  | error e => exact safe_fail (h e rfl)
  | ok a => exact safe_pure a

theorem safe_avReadHeader : Safe AvError.Bad avReadHeader := by
  have hentry : ∀ md, Safe AvError.Bad (avMetadataEntry md) := by
    intro md
    refine (safe_avBytes.bind fun _ => safe_pure _).bind fun key => safe_avBytes.bind fun vp => ?_
    refine Safe.ite (Safe.ite (safe_fail not_bad_malformed) (safe_pure _)) ?_
    exact Safe.ite (safe_pure _) (safe_pure _)
  refine (safe_avBlocks _ _ hentry _).bind fun md => (safe_avTake _).bind fun sync => ?_
  split
  · exact safe_fail not_bad_malformed
  · exact safe_pure _

theorem sound_avBlockBytes (codec : Option CString) (block : List Byte) (total : ℤ) :
    Sound (avBlockBytes inflate codec block total) := by
  have hinflate : Sound (avInflate inflate block) := by
    unfold avInflate
    split
    · exact sound_error (by simp [AvError.Bad])
    · split
      · exact sound_error (by simp [AvError.Bad])
      · exact sound_ok _
  unfold avBlockBytes
  split
  · split
    · next e he => exact sound_error (hinflate e he)
    · split
      · exact sound_error (by simp [AvError.Bad])
      · exact sound_ok _
  · exact sound_ok _

variable {decode : AvReader α}

theorem sound_avBlockRecords (h : Safe AvError.Bad decode) (count : ℤ)
    (content : List Byte) : Sound (avBlockRecords decode count content) := by
  have hmany := Safe.many (fun out : List α => h.bind fun e =>
    safe_pure (out ++ [e])) count.toNat []
  have hrun := safe_onMalformed (e := AvError.corruptEntry) (by simp [AvError.Bad]) hmany content 0
    (Nat.zero_le _)
  unfold avBlockRecords
  split
  · next e he => exact sound_error (hrun.1 e he)
  · exact sound_ok _

theorem safe_avBlockBody (h : Safe AvError.Bad decode) (codec : Option CString)
    (sync : List Byte) (out : List α × ℤ) (head : ℤ × List Byte) :
    Safe AvError.Bad (avBlockBody inflate codec sync decode out head) := by
  refine (safe_ofExcept (sound_avBlockBytes codec head.2 out.2)).bind fun r => ?_
  refine Safe.ite (safe_fail (by simp [AvError.Bad])) ?_
  refine (safe_ofExcept (sound_avBlockRecords h head.1 r.1)).bind fun records => ?_
  refine (safe_onMalformed (by simp [AvError.Bad]) (safe_avTake avSyncLen)).bind fun bsync => ?_
  exact Safe.ite (safe_pure _) (safe_fail (by simp [AvError.Bad]))

theorem safe_avBlockHead : Safe AvError.Bad avBlockHead :=
  safe_avLong.bind fun _ => safe_avLong.bind fun bsize => (safe_avTake bsize).bind fun _ =>
    Safe.ite (safe_fail not_bad_malformed) (safe_pure _)

/-- A block takes at least the byte of its count. -/
theorem avBlockHead_progress {buf : List Byte} {pos : ℕ} {p : ℕ} {head : ℤ × List Byte}
    (hpos : pos ≤ buf.length)
    (h : avBlockHead buf pos = .ok (head, p)) : pos < p := by
  obtain ⟨count, q, hcount, hrest⟩ := bind_ok h
  have hprog := avLong_progress hcount
  have hq := (safe_avLong buf pos hpos).2 count q hcount
  have htail : Safe AvError.Bad (avLong >>= fun bsize => avTake bsize >>= fun block =>
      if count < 0 ∨ avMaxObjects < count then fail .malformed else pure (count, block)) :=
    safe_avLong.bind fun bsize => (safe_avTake bsize).bind fun _ =>
      Safe.ite (safe_fail not_bad_malformed) (safe_pure _)
  have hp := (htail buf q hq.2).2 head p hrest
  omega

theorem safe_avBlockSequence {buf : List Byte} {pos : ℕ} (h : Safe AvError.Bad decode)
    (codec : Option CString)
    (sync : List Byte) {fuel : ℕ} {out : List α × ℤ} (hpos : pos ≤ buf.length)
    (hfuel : buf.length - pos < fuel) :
    SafeAt AvError.Bad (avBlockSequence inflate codec sync decode fuel out) buf pos := by
  induction fuel generalizing out pos with
  | zero => omega
  | succ fuel ih =>
    rw [avBlockSequence]
    show SafeAt AvError.Bad (if buf.length - pos = 0 then pure out.1 else _) buf pos
    split
    · exact safe_pure _ buf pos hpos
    · have hhead := safe_onMalformed (e := .dataBlock) (by simp [AvError.Bad]) safe_avBlockHead
      refine (hhead buf pos hpos).bind fun head p hrun => ?_
      have hprog := avBlockHead_progress hpos (onMalformed_ok hrun)
      have hp := ((hhead buf pos hpos).2 head p hrun).2
      have hbody : Safe AvError.Bad (avBlockBody inflate codec sync decode out head) :=
        safe_avBlockBody h codec sync out head
      refine (hbody buf p hp).bind fun out' q hrun' => ?_
      have hq := (hbody buf p hp).2 out' q hrun'
      exact ih hq.2 (by omega)

theorem sound_avFileSchema (depth : ℕ) (json : CString) :
    Sound (avFileSchema jsonbIn depth json) := by
  unfold avFileSchema
  split
  · exact sound_error (by simp [AvError.Bad])
  · split
    · next e he => exact sound_error (sound_avSchemaBuild depth _ e he)
    · exact sound_ok _
    · exact sound_error (by simp [AvError.Bad])

/-- **Any file is read to a result or an error.** -/
theorem safe_avReadOcf (depth : ℕ) {decode : AvSchema → AvReader α}
    (h : ∀ s, Safe AvError.Bad (decode s)) :
    Safe AvError.Bad (avReadOcf inflate jsonbIn depth decode) := by
  have hmagic : Safe AvError.Bad avMagic :=
    (safe_avTake 4).bind fun _ => Safe.ite (safe_pure ()) (safe_fail not_bad_malformed)
  have hcodec : ∀ codec, Sound (avCheckCodec codec) := by
    intro codec
    unfold avCheckCodec
    split
    · exact sound_ok ()
    · split
      · exact sound_ok ()
      · exact sound_error (by simp [AvError.Bad])
  refine (safe_onMalformed (by simp [AvError.Bad]) hmagic).bind fun _ => ?_
  refine (safe_onMalformed (by simp [AvError.Bad]) safe_avReadHeader).bind fun r => ?_
  refine (safe_ofExcept (hcodec r.2.1)).bind fun _ => ?_
  refine (safe_ofExcept (sound_avFileSchema depth r.1)).bind fun schema => ?_
  exact fun buf pos hpos => safe_avBlockSequence (h schema) _ _ hpos (Nat.lt_succ_self _)

end File

/-! ### Records in step with the schema -/

/-- **The decoders stay in step with any schema**: a skip takes exactly its value; an entry is
exactly its projection if and only if no string of it holds a NUL, and a manifest if and only if
moreover its file counts fit 32 bits; and any file is read to a result or an error. -/
theorem avro_exact_iff (encoding : Bool) (verifyUtf8 : List Byte → Bool)
    (floatText doubleText : List Byte → List Byte) (inflate : List Byte → Option (List Byte))
    (jsonbIn : CString → Option JsonbValue) :
    (∀ depth s v bs, Encodes depth s v bs → Parses (avSkip depth s) bs ()) ∧
    (∀ depth fields v bs, Encodes depth (.record fields) v bs →
      (∀ fv ∈ fields.zip (recordOf v), EntryFieldOk fv) →
        ∃ e, Parses (avDecodeEntry encoding verifyUtf8 floatText doubleText depth
          (.record fields)) bs e ∧
          (e = projectEntry id encoding verifyUtf8 floatText doubleText (fields.zip (recordOf v)) ↔
            (projectEntry id encoding verifyUtf8 floatText doubleText
              (fields.zip (recordOf v))).NoNul)) ∧
    (∀ depth fields v bs, Encodes depth (.record fields) v bs →
      (∀ fv ∈ fields.zip (recordOf v), ManifestFileFieldOk fv) →
        ∃ e, Parses (avDecodeManifestFile depth (.record fields)) bs e ∧
          (e = projectManifestFile id id (fields.zip (recordOf v)) ↔
            (projectManifestFile id id (fields.zip (recordOf v))).Fits)) ∧
    ∀ depth buf e,
      avReadOcf inflate jsonbIn depth
        (avDecodeEntry encoding verifyUtf8 floatText doubleText depth) buf 0 =
          .error e ∨
        avReadOcf inflate jsonbIn depth (avDecodeManifestFile depth) buf 0 = .error e →
          ¬ e.Bad := by
  refine ⟨fun depth s v bs h => parses_avSkip h, ?_, ?_, ?_⟩
  · intro depth fields v bs h hok
    refine ⟨_, parses_avDecodeEntry h hok, ?_⟩
    rw [projectEntry_cut]
    exact AvroEntry.cut_eq_iff
  · intro depth fields v bs h hok
    refine ⟨_, parses_avDecodeManifestFile h hok, ?_⟩
    rw [projectManifestFile_cut]
    exact AvroManifestFile.cut_eq_iff
  · intro depth buf e h
    have hentry : Safe AvError.Bad (avReadOcf inflate jsonbIn depth
        (avDecodeEntry encoding verifyUtf8 floatText doubleText depth)) :=
      safe_avReadOcf depth fun s => safe_avDecodeEntry depth s
    have hfile : Safe AvError.Bad (avReadOcf inflate jsonbIn depth (avDecodeManifestFile depth)) :=
      safe_avReadOcf depth fun s => safe_avDecodeManifestFile depth s
    obtain h | h := h
    · exact (hentry buf 0 (Nat.zero_le _)).1 e h
    · exact (hfile buf 0 (Nat.zero_le _)).1 e h

/-- A count of `2 ^ 32` in a schema that has it as a long. -/
theorem encodes_filesCount : Encodes 2 (.record [(ascii "added_files_count", .long)])
    (.record [.int 4294967296]) [128, 128, 128, 128, 32] := by
  have hvarint : Varint.Encodes [128, 128, 128, 128, 32] 8589934592 :=
    .more 128 (by decide) (.more 128 (by decide) (.more 128 (by decide) (.more 128 (by decide)
      (.last 32 (by decide)))))
  have hlong : LongBytes 4294967296 [128, 128, 128, 128, 32] :=
    ⟨hvarint, by simp, by decide, by decide⟩
  have hseq : Sequence (fun (f : (CString × AvSchema) × AvValue) bs => Encodes 1 f.1.2 f.2 bs)
      [((ascii "added_files_count", .long), .int 4294967296)] ([128, 128, 128, 128, 32] ++ []) :=
    .cons ⟨_, rfl, hlong⟩ .nil
  exact ⟨_, rfl, rfl, hseq⟩

theorem filesCount_ok :
    ∀ fv ∈ [((ascii "added_files_count", AvSchema.long), AvValue.int 4294967296)],
    ManifestFileFieldOk fv := by
  intro fv hfv
  obtain rfl := List.mem_singleton.mp hfv
  intro h
  exact absurd h (by decide)

theorem avro_exact_iff_filesCount :
    ∃ e, Parses (avDecodeManifestFile 2 (.record [(ascii "added_files_count", .long)]))
        [128, 128, 128, 128, 32] e ∧ e ≠ projectManifestFile id id
          [((ascii "added_files_count", .long), .int 4294967296)] := by
  obtain ⟨e, he, hiff⟩ := (avro_exact_iff false (fun _ => false) id id some fun _ => none).2.2.1 2
    [(ascii "added_files_count", .long)] (.record [.int 4294967296]) [128, 128, 128, 128, 32]
    encodes_filesCount filesCount_ok
  refine ⟨e, he, fun heq => ?_⟩
  have hfits := (hiff.mp heq).2.1
  exact absurd hfits (by decide)

/-- The count is read as zero. -/
theorem decodeManifestFile_not_exact : ¬ ∀ depth fields v bs, Encodes depth (.record fields) v bs →
      (∀ fv ∈ fields.zip (recordOf v), ManifestFileFieldOk fv) →
        Parses (avDecodeManifestFile depth (.record fields)) bs
          (projectManifestFile id id (fields.zip (recordOf v))) := by
  intro h
  have hexact := h 2 [(ascii "added_files_count", .long)] (.record [.int 4294967296])
    [128, 128, 128, 128, 32] encodes_filesCount filesCount_ok
  have hdecode := parses_avDecodeManifestFile encodes_filesCount filesCount_ok
  have hat := at_zero [128, 128, 128, 128, 32] []
  have heq := (hexact _ 0 hat).symm.trans (hdecode _ 0 hat)
  injection heq with heq
  have hcount := congrArg (fun r : AvroManifestFile × ℕ => r.1.addedFilesCount) heq
  exact absurd hcount (by decide)

end PgColumnar.Avro
