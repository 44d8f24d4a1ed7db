import PgColumnar.Encoding.Alp
import PgColumnar.Encoding.BitStream
import PgColumnar.Encoding.Dict
import PgColumnar.Encoding.Fsst

/-!
# Choosing an encoding for a chunk, and undoing it

`PgColumnarEncodeChunk` measures the candidates of a column, on the whole stream
or first on a windowed sample, and keeps the smallest; `PgColumnarDecodeChunk`
cross-checks the recorded lengths and dispatches on the recorded encoding.

The run-length candidate is tried for every fixed width, but the decoder accepts
run-length bodies only for the widths 1, 2, 4 and 8.  `RleStored` says, in terms of
the runs and the distinct values of the stream, when a stream of another width is
stored run-length encoded.

## Main definitions

* `encodeChunk`, `decodeChunk` — the choice and the dispatch.
* `RleStored` — when runs of an odd width are stored.

## Main results

* `encodeChunk_decodes` — what is kept decodes, unless it is such runs.
* `roundTrips_iff` — exactly when the round trip holds.
-/

namespace PgColumnar
namespace Encoding

open Bytes List Nat

/-! ### Encoding -/

/-- The candidates of a column, in the order they are tried. -/
def candidateCodes (att : Attribute) : List EncodingType :=
  if 0 < att.attlen then
    .rle :: ((if isPackableInt att then [.for, .delta, .dod] else []) ++
      ((if isGorillaFloat att then [.gorilla, .alp] else []) ++ [.dict]))
  else if att.attlen = -1 then [.dict]
  else []

/-- One candidate applied to the values of a stream. -/
def encodeAs (att : Attribute) (t : EncodingType) (rawLen : ℕ) (vals : List (List Byte)) :
    Except Fault (Option (List Byte)) :=
  let w := att.attlen.toNat
  match t with
  | .rle => .ok (encodeRle rawLen vals)
  | .for => .ok (encodeFor rawLen w vals)
  | .delta => .ok (encodeDelta rawLen w vals)
  | .dod => .ok (encodeDod rawLen w vals)
  | .gorilla => .ok (encodeGorilla rawLen w vals)
  | .alp => .ok (encodeAlp rawLen w vals)
  | .dict => encodeDict att rawLen vals
  | .none | .fsst => .ok none

/-- The best encoding so far; the raw stream itself under `NONE` to begin with. -/
structure Best where
  code : EncodingType
  buf : List Byte

/-- Keep a candidate's output when it is smaller. -/
def Best.offer (b : Best) (t : EncodingType) : Option (List Byte) → Best
  | none => b
  | some out => if out.length < b.buf.length then ⟨t, out⟩ else b

/-- Apply candidates in order, keeping the smallest. -/
def tryAll (att : Attribute) (rawLen : ℕ) (vals : List (List Byte)) (codes : List EncodingType)
    (b : Best) : Except Fault Best :=
  codes.foldlM (fun b t => do return b.offer t (← encodeAs att t rawLen vals)) b

/-- `ENCODE_SAMPLE_WINDOW` and `ENCODE_SAMPLE_MIN`. -/
def encodeSampleWindow : ℕ := 64
def encodeSampleMin : ℕ := 128

/-- `build_sample`: evenly spread windows of consecutive values. -/
def buildSample {α : Type} (vals : List α) (want : ℕ) : Option (List α) :=
  let n := vals.length
  if want = 0 ∨ n ≤ want then none
  else
    let win := if want < encodeSampleWindow then want else encodeSampleWindow
    let nwin := want / win
    if nwin < 2 ∨ n ≤ win then none
    else some ((List.range nwin).flatMap fun i =>
      (vals.drop (i * (n - win) / (nwin - 1))).take win)

/-- The two candidates the sample likes best, with their sample sizes. -/
structure Ranked where
  cand0 : EncodingType
  best0 : ℕ
  cand1 : EncodingType
  best1 : ℕ

/-- `SAMPLE_TRY`. -/
def Ranked.add (r : Ranked) (t : EncodingType) : Option (List Byte) → Ranked
  | none => r
  | some out =>
    if out.length < r.best0 then ⟨t, out.length, r.cand0, r.best0⟩
    else if out.length < r.best1 then { r with cand1 := t, best1 := out.length }
    else r

/-- Measure every candidate on the sample. -/
def rankSample (att : Attribute) (sample : List (List Byte)) : Except Fault Ranked :=
  let sampleRawLen := sample.length * att.attlen.toNat
  (candidateCodes att).foldlM
    (fun r t => do return r.add t (← encodeAs att t sampleRawLen sample))
    ⟨.none, sampleRawLen, .none, sampleRawLen⟩

/-- The sample of a fixed-width stream, when sampling is on and the stream is large
enough. -/
def chunkSample (att : Attribute) (sampleRows : ℕ) (vals : List (List Byte)) :
    Option (List (List Byte)) :=
  if 0 < att.attlen ∧ encodeSampleMin ≤ sampleRows then buildSample vals sampleRows else none

/-- The FSST candidate, tried when nothing has shrunk the vector by a quarter. -/
def tryFsst (att : Attribute) (raw : List Byte) (table : Option (List Byte)) (b : Best) :
    Except Fault Best :=
  match table with
  | none => .ok b
  | some t =>
    if att.attlen = -1 ∧ raw.length - raw.length / 4 < b.buf.length then do
      return b.offer .fsst (← encodeFsstShared raw t)
    else .ok b

/-- `PgColumnarEncodeChunk`, with the setting of `pgcolumnar.encoding_sample_rows`. -/
def encodeChunk (sampleRows : ℕ) (att : Attribute) (raw : List Byte) (valueCount : ℕ)
    (table : Option (List Byte)) : Except Fault Best :=
  let n := valueCount % 2 ^ 32
  -- nothing to do for an empty (all-null) chunk
  if raw.length = 0 ∨ n = 0 then .ok ⟨.none, raw⟩
  else
    let vals := splitValues att n raw
    match chunkSample att sampleRows vals with
    | some sample => do
      let r ← rankSample att sample
      tryAll att raw.length vals [r.cand0, r.cand1] ⟨.none, raw⟩
    | none => do
      let b ← tryAll att raw.length vals (candidateCodes att) ⟨.none, raw⟩
      tryFsst att raw table b

/-! ### Decoding -/

/-- The cross-check of the recorded lengths in front of the dispatch. -/
def checkLengths (t : EncodingType) (att : Attribute) (encLen n rawLen : ℕ) : Except Fault Unit :=
  match t with
  | .rle | .for | .delta | .gorilla | .dod =>
    if att.attlen ≠ 1 ∧ att.attlen ≠ 2 ∧ att.attlen ≠ 4 ∧ att.attlen ≠ 8 then
      .error (.corrupt "fixed-width encoding on a non-fixed-width column")
    else if n * att.attlen.toNat ≠ rawLen then
      .error (.corrupt "raw length does not match value count")
    else .ok ()
  | .alp =>
    if att.attlen ≠ 4 ∧ att.attlen ≠ 8 then .error (.corrupt "ALP on a non-float column")
    else if n * att.attlen.toNat ≠ rawLen then
      .error (.corrupt "raw length does not match value count")
    else .ok ()
  | .none =>
    if encLen ≠ rawLen then .error (.corrupt "uncompressed length mismatch") else .ok ()
  | .dict | .fsst => .ok ()

/-- The dispatch on the encoding. -/
def decodeAs (t : EncodingType) (enc : List Byte) (att : Attribute) (n rawLen : ℕ)
    (table : Option (List Byte)) : Except Fault (List Byte) :=
  let w := att.attlen.toNat
  match t with
  | .none => .ok enc
  | .rle => decodeRle enc w n
  | .for => decodeFor enc n rawLen
  | .delta => decodeDelta enc n rawLen
  | .gorilla => decodeGorilla enc w n
  | .dod => decodeDod enc n rawLen
  | .alp => decodeAlp enc w n rawLen
  | .dict => decodeDict att enc n rawLen
  | .fsst =>
    match table with
    | none => .error (.corrupt "FSST vector without a chunk-shared table")
    | some tb =>
      if tb.length = 0 then .error (.corrupt "FSST vector without a chunk-shared table")
      else decodeFsstShared enc tb rawLen

/-- `PgColumnarDecodeChunk`. -/
def decodeChunk (enc : List Byte) (encodingType : ℤ) (att : Attribute) (valueCount rawLen : ℕ)
    (table : Option (List Byte)) : Except Fault (List Byte) :=
  let n := valueCount % 2 ^ 32
  if 2 ^ 32 - 1 < valueCount then .error (.corrupt "value count too large")
  else
    match EncodingType.ofCode encodingType with
    | none => .error (.unknownEncoding encodingType)
    | some t => do
      checkLengths t att enc.length n rawLen
      decodeAs t enc att n rawLen table

/-! ### What a stream of an odd width is stored as -/

/-- The run-length form is smaller than the values themselves. -/
def RleFits (w : ℕ) (vals : List (List Byte)) : Prop := rleSize w vals < vals.length * w

/-- The distinct values fit a dictionary, whose form is smaller than the values. -/
def DictFits (w : ℕ) (vals : List (List Byte)) : Prop :=
  distinctCount vals ≤ dictMaxDistinct ∧ dictSize w vals < vals.length * w

/-- When a stream whose only candidates are runs and a dictionary is stored as runs:
the runs are the smaller form, ties going to the candidate tried first, and both
forms pass the sample when there is one. -/
def RleStored (w : ℕ) (vals : List (List Byte)) : Option (List (List Byte)) → Prop
  | none => RleFits w vals ∧ (DictFits w vals → rleSize w vals ≤ dictSize w vals)
  | some s => RleFits w s ∧ RleFits w vals ∧ (DictFits w s → DictFits w vals →
      if dictSize w s < rleSize w s then rleSize w vals < dictSize w vals
      else rleSize w vals ≤ dictSize w vals)

instance (w : ℕ) (vals : List (List Byte)) : Decidable (RleFits w vals) :=
  inferInstanceAs (Decidable (_ < _))

instance (w : ℕ) (vals : List (List Byte)) : Decidable (DictFits w vals) :=
  inferInstanceAs (Decidable (_ ∧ _))

instance (w : ℕ) (vals : List (List Byte)) (s : Option (List (List Byte))) :
    Decidable (RleStored w vals s) :=
  match s with
  | none => inferInstanceAs (Decidable (_ ∧ _))
  | some _ => inferInstanceAs (Decidable (_ ∧ _ ∧ _))

/-- Encode followed by decode gives back the raw stream, and neither raises an error. -/
def RoundTrips (sampleRows : ℕ) (att : Attribute) (raw : List Byte) (n : ℕ)
    (table : Option (List Byte)) : Prop :=
  ∃ b, encodeChunk sampleRows att raw n table = .ok b ∧
    decodeChunk b.buf b.code.code att n raw.length table = .ok raw

/-! ### Every candidate is decoded -/

/-- A non-empty well-formed stream together with its values. -/
structure Loaded (att : Attribute) (n : ℕ) (raw : List Byte) (vals : List (List Byte)) : Prop where
  count : vals.length = n
  count_lt : n < 2 ^ 32
  values : ∀ v ∈ vals, IsValue att v
  small : ∀ v ∈ vals, v.length < 2 ^ 32
  raw_eq : raw = vals.flatten
  fixed_len : 0 < att.attlen → raw.length = n * att.attlen.toNat
  ne_nil : vals ≠ []

theorem length_le_length_flatten {vals : List (List Byte)} (h : ∀ v ∈ vals, 0 < v.length) :
    vals.length ≤ vals.flatten.length := by
  induction vals with
  | nil => simp
  | cons v vals ih =>
    have hv := h v mem_cons_self
    have hrest := ih fun u hu => h u (mem_cons_of_mem v hu)
    rw [length_cons, flatten_cons, length_append]
    omega

theorem IsValue.length_pos {att : Attribute} {v : List Byte} (h : IsValue att v) :
    0 < v.length := by
  rcases h with ⟨hpos, hlen⟩ | ⟨-, hhdr, -⟩
  · omega
  · exact lt_of_lt_of_le (varHeaderLen_pos v) hhdr

variable {n : ℕ}

theorem WellFormedStream.attlen {att : Attribute} {raw : List Byte}
    (h : WellFormedStream att n raw) : 0 < att.attlen ∨ att.attlen = -1 := by
  rcases h.shape with h | h
  · exact Or.inl h.1
  · exact Or.inr h.1

theorem WellFormedStream.count_lt {att : Attribute} {raw : List Byte}
    (h : WellFormedStream att n raw) : n < 2 ^ 32 := by
  obtain ⟨vals, hn, hval, hraw, -⟩ := h.exists_values
  have hle := length_le_length_flatten fun v hv => (hval v hv).length_pos
  have halloc := h.len_lt
  rw [hraw] at halloc
  omega

theorem WellFormedStream.loaded {att : Attribute} {raw : List Byte}
    (h : WellFormedStream att n raw) (hn : n ≠ 0) : Loaded att n raw (splitValues att n raw) := by
  obtain ⟨vals, hlen, hval, hraw, hsplit⟩ := h.exists_values
  rw [hsplit]
  refine ⟨hlen, h.count_lt, hval, ?_, hraw, ?_, ?_⟩
  · intro v hv
    have hle : v.length ≤ vals.flatten.length := (sublist_flatten_of_mem hv).length_le
    have halloc := h.len_lt
    rw [hraw] at halloc
    omega
  · intro hpos
    rcases h.shape with hs | hs
    · exact hs.2
    · omega
  · rintro rfl
    exact hn hlen.symm

theorem Loaded.length_eq {att : Attribute} {raw : List Byte} {vals : List (List Byte)}
    (h : Loaded att n raw vals) (hpos : 0 < att.attlen) :
    ∀ v ∈ vals, v.length = att.attlen.toNat := by
  intro v hv
  rcases h.values v hv with hv | hv
  · exact hv.2
  · omega

theorem encodeAs_ok (att : Attribute) (t : EncodingType) (rawLen : ℕ)
    (vals : List (List Byte)) : ∃ r, encodeAs att t rawLen vals = .ok r := by
  cases t with
  | dict =>
    rcases encodeDict_eq att rawLen vals with ⟨-, h⟩ | ⟨-, dist, codes, h, -⟩
    · exact ⟨_, h⟩
    · exact ⟨_, h⟩
  | _ => exact ⟨_, rfl⟩

variable {t : EncodingType}

theorem mem_candidateCodes {att : Attribute} (h : t ∈ candidateCodes att) :
    (t = .rle ∧ 0 < att.attlen) ∨
      ((t = .for ∨ t = .delta ∨ t = .dod) ∧ isPackableInt att = true) ∨
      ((t = .gorilla ∨ t = .alp) ∧ isGorillaFloat att = true) ∨ t = .dict := by
  unfold candidateCodes at h
  split_ifs at h with h1 h2 h3 h3 h4 <;> simp at h <;> tauto

variable {rawLen : ℕ}

theorem decodeChunk_eq {att : Attribute} (hn : n < 2 ^ 32) (t : EncodingType)
    (enc : List Byte) (table : Option (List Byte)) :
    decodeChunk enc t.code att n rawLen table = (do
      checkLengths t att enc.length n rawLen
      decodeAs t enc att n rawLen table) := by
  unfold decodeChunk
  rw [if_neg (by omega), EncodingType.ofCode_code, mod_eq_of_lt hn]

theorem intWidth_attlen {att : Attribute} (h : IntWidth att.attlen.toNat) :
    ¬ (att.attlen ≠ 1 ∧ att.attlen ≠ 2 ∧ att.attlen ≠ 4 ∧ att.attlen ≠ 8) ∧ 0 < att.attlen := by
  unfold IntWidth at h
  omega

/-- **Every candidate's output is decoded to the stream**, except run-length output at a
width the decoder rejects. -/
theorem encodeAs_decodes {att : Attribute} {raw : List Byte} {vals : List (List Byte)}
    (hload : Loaded att n raw vals) (ht : t ∈ candidateCodes att)
    (hrle : t = .rle → IntWidth att.attlen.toNat) {out : List Byte}
    (h : encodeAs att t raw.length vals = .ok (some out)) (table : Option (List Byte)) :
    decodeChunk out t.code att n raw.length table = .ok raw := by
  have hn := hload.count
  suffices hsuff : checkLengths t att out.length vals.length raw.length = .ok () ∧
      decodeAs t out att vals.length raw.length table = .ok vals.flatten by
    rw [hn, ← hload.raw_eq] at hsuff
    rw [decodeChunk_eq hload.count_lt, hsuff.1]
    exact hsuff.2
  rcases mem_candidateCodes ht with ⟨rfl, hpos⟩ | ⟨ht, hpack⟩ | ⟨ht, hfloat⟩ | rfl
  · have hw := (intWidth_attlen (hrle rfl)).1
    rw [hload.fixed_len hpos, ← hn]
    exact ⟨by rw [checkLengths, if_neg hw, if_neg (not_not.mpr rfl)],
      decodeRle_encodeRle hload.ne_nil
      (hload.length_eq hpos) (hn ▸ hload.count_lt) (Except.ok.inj h)⟩
  · have hint := intWidth_of_isPackableInt hpack
    obtain ⟨hw, hpos⟩ := intWidth_attlen hint
    have hlen := hload.length_eq hpos
    rw [hload.fixed_len hpos, ← hn]
    rcases ht with rfl | rfl | rfl
    · exact ⟨by rw [checkLengths, if_neg hw, if_neg (not_not.mpr rfl)],
        decodeFor_encodeFor hint hlen (Except.ok.inj h)⟩
    · exact ⟨by rw [checkLengths, if_neg hw, if_neg (not_not.mpr rfl)],
        decodeDelta_encodeDelta hload.ne_nil hint hlen (Except.ok.inj h)⟩
    · exact ⟨by rw [checkLengths, if_neg hw, if_neg (not_not.mpr rfl)],
        decodeDod_encodeDod hload.ne_nil hint hlen (Except.ok.inj h)⟩
  · have h48 := attlen_of_isGorillaFloat hfloat
    have hpos : 0 < att.attlen := by omega
    have hw48 : att.attlen.toNat = 4 ∨ att.attlen.toNat = 8 := by omega
    have hlen := hload.length_eq hpos
    rw [hload.fixed_len hpos, ← hn]
    rcases ht with rfl | rfl
    · exact ⟨by rw [checkLengths, if_neg (by omega), if_neg (not_not.mpr rfl)],
        decodeGorilla_encodeGorilla hw48 hlen (Except.ok.inj h)⟩
    · exact ⟨by rw [checkLengths, if_neg (by omega), if_neg (not_not.mpr rfl)],
        decodeAlp_encodeAlp hw48 hlen (hn ▸ hload.count_lt) (Except.ok.inj h)⟩
  · have hatt : 0 < att.attlen ∨ att.attlen = -1 := by
      obtain ⟨v, hv⟩ := exists_mem_of_ne_nil vals hload.ne_nil
      rcases hload.values v hv with hv | hv
      · exact Or.inl hv.1
      · exact Or.inr hv.1
    rw [hload.raw_eq]
    exact ⟨rfl, decodeDict_encodeDict hatt
      (fun v hv hpos => hload.length_eq hpos v hv) hload.small h⟩

/-! ### The selection keeps what decodes -/

/-- The best so far is decoded to the stream. -/
def Best.Decodes (b : Best) (att : Attribute) (n : ℕ) (raw : List Byte)
    (table : Option (List Byte)) : Prop :=
  decodeChunk b.buf b.code.code att n raw.length table = .ok raw

theorem Best.decodes_raw {att : Attribute} (hn : n < 2 ^ 32) (raw : List Byte)
    (table : Option (List Byte)) : Best.Decodes ⟨.none, raw⟩ att n raw table := by
  unfold Best.Decodes
  rw [decodeChunk_eq hn]
  simp only [checkLengths, ne_eq, not_true_eq_false, if_false, decodeAs]
  rfl

variable {b : Best} {r : Option (List Byte)}

theorem Best.offer_inv {P : Best → Prop} (hb : P b) (hr : ∀ out, r = some out → P ⟨t, out⟩) :
    P (b.offer t r) := by
  cases r with
  | none => exact hb
  | some out =>
    rw [Best.offer]
    split
    · exact hr out rfl
    · exact hb

theorem tryAll_cons {att : Attribute} {vals : List (List Byte)}
    (h : encodeAs att t rawLen vals = .ok r) (codes : List EncodingType)
    (b : Best) : tryAll att rawLen vals (t :: codes) b =
      tryAll att rawLen vals codes (b.offer t r) := by
  unfold tryAll
  rw [foldlM_cons, h]
  rfl

theorem tryAll_rle_cons {att : Attribute} {vals : List (List Byte)} (h : encodeRle rawLen vals = r)
    (codes : List EncodingType)
    (b : Best) :
    tryAll att rawLen vals (.rle :: codes) b = tryAll att rawLen vals codes (b.offer .rle r) :=
  tryAll_cons (t := .rle) (congrArg Except.ok h) codes b

theorem tryAll_dict_cons {att : Attribute} {vals : List (List Byte)}
    (h : encodeDict att rawLen vals = .ok r) (codes : List EncodingType)
    (b : Best) :
    tryAll att rawLen vals (.dict :: codes) b = tryAll att rawLen vals codes (b.offer .dict r) :=
  tryAll_cons (t := .dict) h codes b

/-- What holds of the raw stream and of every candidate's output holds of the one kept. -/
theorem tryAll_inv {P : Best → Prop} {att : Attribute} {vals : List (List Byte)}
    (codes : List EncodingType)
    (hcodes : ∀ t ∈ codes, ∀ out, encodeAs att t rawLen vals = .ok (some out) → P ⟨t, out⟩)
    (hb : P b) : ∃ b', tryAll att rawLen vals codes b = .ok b' ∧ P b' := by
  induction codes generalizing b with
  | nil => exact ⟨b, rfl, hb⟩
  | cons t codes ih =>
    obtain ⟨r, hr⟩ := encodeAs_ok att t rawLen vals
    rw [tryAll_cons hr]
    refine ih (fun u hu => hcodes u (mem_cons_of_mem t hu)) (Best.offer_inv hb ?_)
    rintro out rfl
    exact hcodes t mem_cons_self out hr

/-- The sample ranks only candidates of the column. -/
theorem rankSample_ok (att : Attribute) (sample : List (List Byte)) :
    ∃ r, rankSample att sample = .ok r ∧
      ∀ t ∈ [r.cand0, r.cand1], t = .none ∨ t ∈ candidateCodes att := by
  have hfold : ∀ (codes : List EncodingType) (r : Ranked),
      (∀ t ∈ codes, t ∈ candidateCodes att) →
      (∀ t ∈ [r.cand0, r.cand1], t = .none ∨ t ∈ candidateCodes att) →
      ∃ r', codes.foldlM (fun r t => do
          return r.add t (← encodeAs att t (sample.length * att.attlen.toNat) sample)) r =
          Except.ok r' ∧ ∀ t ∈ [r'.cand0, r'.cand1], t = .none ∨ t ∈ candidateCodes att := by
    intro codes
    induction codes with
    | nil => exact fun r _ hr => ⟨r, rfl, hr⟩
    | cons t codes ih =>
      intro r hcodes hr
      obtain ⟨o, ho⟩ := encodeAs_ok att t (sample.length * att.attlen.toNat) sample
      rw [foldlM_cons, ho]
      refine ih _ (fun u hu => hcodes u (mem_cons_of_mem t hu)) ?_
      have ht : t = .none ∨ t ∈ candidateCodes att := Or.inr (hcodes t mem_cons_self)
      simp only [mem_cons, not_mem_nil, or_false, forall_eq_or_imp, forall_eq] at hr ⊢
      cases o with
      | none => exact hr
      | some out =>
        rw [Ranked.add]
        split_ifs
        · exact ⟨ht, hr.1⟩
        · exact ⟨hr.1, ht⟩
        · exact hr
  exact hfold _ _ (fun t ht => ht) (by simp)

/-- The one stored form the decoder rejects: runs of values of an odd width. -/
def RejectedRuns (att : Attribute) (b : Best) : Prop :=
  b.code = .rle ∧ 0 < att.attlen ∧ ¬ IntWidth att.attlen.toNat

theorem not_decodes_of_rejectedRuns {att : Attribute} (h : RejectedRuns att b)
    (hn : n < 2 ^ 32) (raw : List Byte) (table : Option (List Byte)) :
    ¬ b.Decodes att n raw table := by
  obtain ⟨hcode, hpos, hw⟩ := h
  have hwidth : att.attlen ≠ 1 ∧ att.attlen ≠ 2 ∧ att.attlen ≠ 4 ∧ att.attlen ≠ 8 := by
    unfold IntWidth at hw
    omega
  unfold Best.Decodes
  rw [decodeChunk_eq hn, hcode]
  simp only [checkLengths, if_pos hwidth]
  intro h
  exact absurd h (by simp [bind, Except.bind])

variable {table : Option (List Byte)}

/-- **The encoder returns, and what it returns decodes to the stream unless it is runs
of an odd width.** -/
theorem encodeChunk_decodes {att : Attribute} {raw : List Byte} (h : WellFormedStream att n raw)
    (htable : ∀ t, table = some t → ∃ corpus, fsstBuildChunkTable att corpus = .ok (some t))
    (sampleRows : ℕ) :
    ∃ b, encodeChunk sampleRows att raw n table = .ok b ∧
      (b.Decodes att n raw table ∨ RejectedRuns att b) := by
  have hlt := h.count_lt
  have hraw : Best.Decodes ⟨.none, raw⟩ att n raw table := Best.decodes_raw hlt raw table
  unfold encodeChunk
  dsimp only
  rw [mod_eq_of_lt hlt]
  by_cases hempty : raw.length = 0 ∨ n = 0
  · rw [if_pos hempty]
    exact ⟨_, rfl, Or.inl hraw⟩
  · rw [if_neg hempty]
    push Not at hempty
    have hload := h.loaded hempty.2
    -- every candidate decodes, runs of an odd width apart
    have hcand : ∀ t ∈ candidateCodes att, ∀ out,
        encodeAs att t raw.length (splitValues att n raw) = .ok (some out) →
        Best.Decodes ⟨t, out⟩ att n raw table ∨ RejectedRuns att ⟨t, out⟩ := by
      intro t ht out hout
      by_cases hrle : t = .rle → IntWidth att.attlen.toNat
      · exact Or.inl (encodeAs_decodes hload ht hrle hout table)
      · push Not at hrle
        refine Or.inr ⟨hrle.1, ?_, hrle.2⟩
        rcases mem_candidateCodes ht with ⟨-, hpos⟩ | ⟨ht, -⟩ | ⟨ht, -⟩ | ht
        · exact hpos
        · rw [hrle.1] at ht
          simp at ht
        · rw [hrle.1] at ht
          simp at ht
        · rw [hrle.1] at ht
          simp at ht
    -- with a sample only its two best candidates are tried
    cases hsample : chunkSample att sampleRows (splitValues att n raw) with
    | some sample =>
      obtain ⟨r, hr, hmem⟩ := rankSample_ok att sample
      simp only [hr, bind, Except.bind]
      refine tryAll_inv [r.cand0, r.cand1] ?_ (Or.inl hraw)
      intro t ht out hout
      rcases hmem t ht with rfl | ht
      · exact absurd (Except.ok.inj hout) (by simp)
      · exact hcand t ht out hout
    | none =>
      obtain ⟨b, hb, hP⟩ := tryAll_inv (P := fun b => b.Decodes att n raw table ∨
        RejectedRuns att b) (candidateCodes att) hcand (Or.inl hraw)
      simp only [hb, bind, Except.bind]
      unfold tryFsst
      cases htab : table with
      | none =>
        rw [htab] at hP
        exact ⟨b, rfl, hP⟩
      | some tb =>
        rw [htab] at hP htable
        dsimp only
        split
        · -- the shared table was built for the chunk, so it parses and its codes decode
          obtain ⟨corpus, hcorpus⟩ := htable tb rfl
          obtain ⟨syms, hne, hsyms, rfl⟩ := exists_of_fsstBuildChunkTable hcorpus
          obtain ⟨r, hr, hdec⟩ := decodeFsstShared_encodeFsstShared hsyms raw
          simp only [hr, bind, Except.bind, pure, Except.pure]
          refine ⟨_, rfl, Best.offer_inv (P := fun b => b.Decodes att n raw
            (some (fsstSerialize syms)) ∨ RejectedRuns att b) hP ?_⟩
          intro out hro
          refine Or.inl ?_
          unfold Best.Decodes
          rw [decodeChunk_eq hlt]
          have hlen : ¬ (fsstSerialize syms).length = 0 := by simp [fsstSerialize]
          simp only [checkLengths, decodeAs, if_neg hlen, hdec out hro]
          rfl
        · exact ⟨b, rfl, hP⟩

/-! ### When an odd width is stored as runs -/

theorem encodeRle_cases {w : ℕ} {vals : List (List Byte)} (hne : vals ≠ [])
    (hw : ∀ v ∈ vals, v.length = w) :
    (encodeRle (vals.length * w) vals = none ∧ ¬ RleFits w vals) ∨
      (∃ out, encodeRle (vals.length * w) vals = some out ∧ out.length = rleSize w vals ∧
        RleFits w vals) := by
  have hsize := encodeRle_eq_size (vals.length * w) hne hw
  cases henc : encodeRle (vals.length * w) vals with
  | none =>
    rw [henc] at hsize
    split_ifs at hsize with h
    · exact Or.inl ⟨rfl, not_lt.mpr h⟩
    · exact absurd hsize (by simp)
  | some out =>
    rw [henc] at hsize
    split_ifs at hsize with h
    · exact absurd hsize (by simp)
    · exact Or.inr ⟨out, rfl, Option.some.inj hsize, not_le.mp h⟩

theorem encodeDict_cases {att : Attribute} {vals : List (List Byte)} (hatt : 0 < att.attlen)
    (hw : ∀ v ∈ vals, v.length = att.attlen.toNat) :
    (encodeDict att (vals.length * att.attlen.toNat) vals = .ok none ∧
        ¬ DictFits att.attlen.toNat vals) ∨
      (∃ out, encodeDict att (vals.length * att.attlen.toNat) vals = .ok (some out) ∧
        out.length = dictSize att.attlen.toNat vals ∧ DictFits att.attlen.toNat vals) := by
  obtain ⟨r, hr, hsize⟩ := encodeDict_eq_size (vals.length * att.attlen.toNat) hatt hw
  rw [hr]
  cases r with
  | none =>
    split_ifs at hsize with h
    · refine Or.inl ⟨rfl, ?_⟩
      unfold DictFits
      omega
    · exact absurd hsize (by simp)
  | some out =>
    split_ifs at hsize with h
    · exact absurd hsize (by simp)
    · refine Or.inr ⟨out, rfl, Option.some.inj hsize, ?_⟩
      unfold DictFits
      omega

/-- An odd width has two candidates only. -/
theorem candidateCodes_of_odd {att : Attribute} (hpos : 0 < att.attlen)
    (hw : ¬ IntWidth att.attlen.toNat) : candidateCodes att = [.rle, .dict] := by
  have hint : isPackableInt att = false := by
    rw [Bool.eq_false_iff]
    exact fun h => hw (intWidth_of_isPackableInt h)
  have hfloat : isGorillaFloat att = false := by
    rw [Bool.eq_false_iff]
    intro h
    have := attlen_of_isGorillaFloat h
    unfold IntWidth at hw
    omega
  simp [candidateCodes, hpos, hint, hfloat]

/-- A sample keeps the element widths and is not empty. -/
theorem buildSample_spec {α : Type} {vals s : List α} {want : ℕ}
    (h : buildSample vals want = some s) : s ≠ [] ∧ ∀ v ∈ s, v ∈ vals := by
  unfold buildSample at h
  dsimp only at h
  split_ifs at h with h1 h2 h3 h3
  all_goals
    obtain rfl := Option.some.inj h
    refine ⟨?_, ?_⟩
    · -- the first window is not empty
      intro hnil
      rw [flatMap_eq_nil_iff] at hnil
      have h0 := hnil 0 (by rw [mem_range]; omega)
      rw [Nat.zero_mul, Nat.zero_div, drop_zero, take_eq_nil_iff] at h0
      rcases h0 with h0 | h0
      · have : encodeSampleWindow = 64 := rfl
        omega
      · rw [h0] at h1
        simp at h1
    · intro v hv
      obtain ⟨i, -, hi⟩ := mem_flatMap.mp hv
      exact mem_of_mem_drop (mem_of_mem_take hi)

/-- Runs tried first lose to a strictly smaller dictionary only. -/
theorem offer_rle_dict {raw o : List Byte} (ho : o.length < raw.length) (D : Option (List Byte)) :
    (((⟨.none, raw⟩ : Best).offer .rle (some o)).offer .dict D).code = .rle ↔
      ∀ d, D = some d → o.length ≤ d.length := by
  rw [Best.offer, if_pos ho]
  cases D with
  | none => simp [Best.offer]
  | some d =>
    rw [Best.offer]
    by_cases hd : d.length < o.length
    · simp [hd]
    · simpa [hd] using not_lt.mp hd

/-- Runs tried second have to be strictly smaller than the dictionary. -/
theorem offer_dict_rle {raw o : List Byte} (ho : o.length < raw.length) {D : Option (List Byte)}
    (hD : ∀ d, D = some d → d.length < raw.length) :
    (((⟨.none, raw⟩ : Best).offer .dict D).offer .rle (some o)).code = .rle ↔
      ∀ d, D = some d → o.length < d.length := by
  cases D with
  | none => simp [Best.offer, ho]
  | some d =>
    have hd : Best.offer ⟨.none, raw⟩ .dict (some d) = ⟨.dict, d⟩ := if_pos (hD d rfl)
    rw [hd, Best.offer]
    by_cases hod : o.length < d.length
    · simp [hod]
    · simp [hod]

/-- Without a run-length candidate nothing is stored as runs. -/
theorem offer_code_ne_rle (hb : b.code ≠ .rle) (ht : t ≠ .rle)
    (r : Option (List Byte)) : (b.offer t r).code ≠ .rle :=
  Best.offer_inv (P := fun b => b.code ≠ .rle) hb fun _ _ => ht

section OddWidth

variable {att : Attribute} {raw : List Byte} {vals : List (List Byte)}
  (hpos : 0 < att.attlen) (hw : ¬ IntWidth att.attlen.toNat) (hne : vals ≠ [])
  (hlen : ∀ v ∈ vals, v.length = att.attlen.toNat)
  (hraw : raw.length = vals.length * att.attlen.toNat)

include hpos hw hne hlen hraw

omit hw in
/-- Applying the runs first, whatever comes second. -/
theorem tryAll_rle_code {t : EncodingType} (ht : t = .none ∨ t = .dict) {b : Best}
    (hb : tryAll att raw.length vals [.rle, t] ⟨.none, raw⟩ = .ok b) :
    b.code = .rle ↔ RleFits att.attlen.toNat vals ∧ (t = .dict → DictFits att.attlen.toNat vals →
      rleSize att.attlen.toNat vals ≤ dictSize att.attlen.toNat vals) := by
  rw [hraw] at hb
  rcases encodeRle_cases hne hlen with ⟨hR, hno⟩ | ⟨o, hR, ho, hfit⟩
  · obtain ⟨r, hr⟩ := encodeAs_ok att t (vals.length * att.attlen.toNat) vals
    rw [tryAll_rle_cons hR, tryAll_cons hr] at hb
    obtain rfl := Except.ok.inj hb
    refine iff_of_false (offer_code_ne_rle (by simp [Best.offer]) ?_ r) fun h => hno h.1
    rcases ht with rfl | rfl <;> simp
  · rw [tryAll_rle_cons hR] at hb
    have ho' : o.length < raw.length := by
      rw [ho, hraw]
      exact hfit
    rcases ht with rfl | rfl
    · rw [tryAll_cons rfl] at hb
      obtain rfl := Except.ok.inj hb
      exact iff_of_true (by simp [Best.offer, ho']) ⟨hfit, by simp⟩
    · rcases encodeDict_cases hpos hlen with ⟨hD, hno⟩ | ⟨d, hD, hd, hdfit⟩
      · rw [tryAll_dict_cons hD] at hb
        obtain rfl := Except.ok.inj hb
        rw [offer_rle_dict ho']
        exact iff_of_true (by simp) ⟨hfit, fun _ h => absurd h hno⟩
      · rw [tryAll_dict_cons hD] at hb
        obtain rfl := Except.ok.inj hb
        rw [offer_rle_dict ho']
        simp only [Option.some.injEq, forall_eq', ho, hd, hfit, hdfit, true_and, true_implies]

/-- The exhaustive path: runs first, then the dictionary. -/
theorem tryAll_odd_code {b : Best}
    (hb : tryAll att raw.length vals (candidateCodes att) ⟨.none, raw⟩ = .ok b) :
    b.code = .rle ↔ RleStored att.attlen.toNat vals none := by
  rw [candidateCodes_of_odd hpos hw] at hb
  rw [tryAll_rle_code hpos hne hlen hraw (Or.inr rfl) hb]
  simp [RleStored]

omit hw in
/-- Applying the dictionary first and the runs second. -/
theorem tryAll_dict_rle_code {b : Best}
    (hb : tryAll att raw.length vals [.dict, .rle] ⟨.none, raw⟩ = .ok b) :
    b.code = .rle ↔ RleFits att.attlen.toNat vals ∧ (DictFits att.attlen.toNat vals →
      rleSize att.attlen.toNat vals < dictSize att.attlen.toNat vals) := by
  rw [hraw] at hb
  rcases encodeDict_cases hpos hlen with ⟨hD, hdno⟩ | ⟨d, hD, hd, hdfit⟩
  · rw [tryAll_dict_cons hD] at hb
    rcases encodeRle_cases hne hlen with ⟨hR, hno⟩ | ⟨o, hR, ho, hfit⟩
    · rw [tryAll_rle_cons hR] at hb
      obtain rfl := Except.ok.inj hb
      exact iff_of_false (by simp [Best.offer]) fun h => hno h.1
    · rw [tryAll_rle_cons hR] at hb
      obtain rfl := Except.ok.inj hb
      have ho' : o.length < raw.length := by
        rw [ho, hraw]
        exact hfit
      rw [offer_dict_rle ho' (by simp)]
      exact iff_of_true (by simp) ⟨hfit, fun h => absurd h hdno⟩
  · rw [tryAll_dict_cons hD] at hb
    have hd' : d.length < raw.length := by
      rw [hd, hraw]
      exact hdfit.2
    rcases encodeRle_cases hne hlen with ⟨hR, hno⟩ | ⟨o, hR, ho, hfit⟩
    · rw [tryAll_rle_cons hR] at hb
      obtain rfl := Except.ok.inj hb
      refine iff_of_false ?_ fun h => hno h.1
      exact offer_code_ne_rle (b := ⟨.none, raw⟩) (by simp) (by simp) (some d)
    · rw [tryAll_rle_cons hR] at hb
      obtain rfl := Except.ok.inj hb
      have ho' : o.length < raw.length := by
        rw [ho, hraw]
        exact hfit
      rw [offer_dict_rle ho' (by rintro _ ⟨⟩; exact hd')]
      simp only [Option.some.injEq, forall_eq', ho, hd, hfit, hdfit, true_and, true_implies]

omit hne hlen hraw in
/-- The sampled path: the sample decides which of the two are applied, and in which
order. -/
theorem rankSample_odd {s : List (List Byte)} (hsne : s ≠ [])
    (hslen : ∀ v ∈ s, v.length = att.attlen.toNat) :
    ∃ r, rankSample att s = .ok r ∧
      (¬ RleFits att.attlen.toNat s ∧ r.cand0 ≠ .rle ∧ r.cand1 ≠ .rle ∨
        RleFits att.attlen.toNat s ∧ ¬ DictFits att.attlen.toNat s ∧
          r.cand0 = .rle ∧ r.cand1 = .none ∨
        RleFits att.attlen.toNat s ∧ DictFits att.attlen.toNat s ∧
          (if dictSize att.attlen.toNat s < rleSize att.attlen.toNat s then
            r.cand0 = .dict ∧ r.cand1 = .rle
          else r.cand0 = .rle ∧ r.cand1 = .dict)) := by
  unfold rankSample
  rw [candidateCodes_of_odd hpos hw]
  simp only [foldlM_cons, foldlM_nil, encodeAs, bind, Except.bind, pure, Except.pure]
  rcases encodeRle_cases hsne hslen with ⟨hR, hno⟩ | ⟨o, hR, ho, hfit⟩
  · rcases encodeDict_cases hpos hslen with ⟨hD, hdno⟩ | ⟨d, hD, hd, hdfit⟩
    · rw [hR, hD]
      exact ⟨_, rfl, Or.inl ⟨hno, by simp [Ranked.add], by simp [Ranked.add]⟩⟩
    · have hd' : d.length < s.length * att.attlen.toNat := by
        rw [hd]
        exact hdfit.2
      rw [hR, hD]
      exact ⟨_, rfl, Or.inl ⟨hno, by simp [Ranked.add, hd'], by simp [Ranked.add, hd']⟩⟩
  · have ho' : o.length < s.length * att.attlen.toNat := by
      rw [ho]
      exact hfit
    rcases encodeDict_cases hpos hslen with ⟨hD, hdno⟩ | ⟨d, hD, hd, hdfit⟩
    · rw [hR, hD]
      exact ⟨_, rfl, Or.inr (Or.inl ⟨hfit, hdno, by simp [Ranked.add, ho'],
        by simp [Ranked.add, ho']⟩)⟩
    · have hd' : d.length < s.length * att.attlen.toNat := by
        rw [hd]
        exact hdfit.2
      rw [hR, hD]
      refine ⟨_, rfl, Or.inr (Or.inr ⟨hfit, hdfit, ?_⟩)⟩
      rw [← ho, ← hd]
      split
      · next hlt => simp [Ranked.add, ho', hlt]
      · next hlt => simp [Ranked.add, ho', hlt, hd']

theorem tryAll_sampled_code {s : List (List Byte)} (hsne : s ≠ [])
    (hslen : ∀ v ∈ s, v.length = att.attlen.toNat) {r : Ranked} (hr : rankSample att s = .ok r)
    {b : Best} (hb : tryAll att raw.length vals [r.cand0, r.cand1] ⟨.none, raw⟩ = .ok b) :
    b.code = .rle ↔ RleStored att.attlen.toNat vals (some s) := by
  obtain ⟨r', hr', hcases⟩ := rankSample_odd hpos hw hsne hslen
  rw [hr] at hr'
  obtain rfl := Except.ok.inj hr'
  unfold RleStored
  rcases hcases with ⟨hno, h0, h1⟩ | ⟨hfit, hdno, h0, h1⟩ | ⟨hfit, hdfit, hord⟩
  · refine iff_of_false ?_ fun h => hno h.1
    have hcand : ∀ t ∈ [r.cand0, r.cand1], ∀ out,
        encodeAs att t raw.length vals = .ok (some out) → t ≠ .rle := by
      intro t ht out _
      simp only [mem_cons, not_mem_nil, or_false] at ht
      rcases ht with rfl | rfl
      · exact h0
      · exact h1
    obtain ⟨b', hb', hcode⟩ := tryAll_inv (P := fun b => b.code ≠ .rle) (b := ⟨.none, raw⟩)
      [r.cand0, r.cand1] hcand (by simp)
    rw [hb] at hb'
    obtain rfl := Except.ok.inj hb'
    exact hcode
  · rw [h0, h1] at hb
    rw [tryAll_rle_code hpos hne hlen hraw (Or.inl rfl) hb]
    simp [hfit, hdno]
  · split_ifs at hord with hlt
    · rw [hord.1, hord.2] at hb
      rw [tryAll_dict_rle_code hpos hne hlen hraw hb]
      simp [hfit, hdfit, hlt]
    · rw [hord.1, hord.2] at hb
      rw [tryAll_rle_code hpos hne hlen hraw (Or.inr rfl) hb]
      simp [hfit, hdfit, hlt]

end OddWidth

/-- **A stream of an odd width is stored as runs exactly when `RleStored` holds.** -/
theorem encodeChunk_code_eq_rle_iff {att : Attribute} {raw : List Byte}
    (h : WellFormedStream att n raw) (hpos : 0 < att.attlen) (hw : ¬ IntWidth att.attlen.toNat)
    {sampleRows : ℕ}
    (hb : encodeChunk sampleRows att raw n table = .ok b) :
    b.code = .rle ↔ RleStored att.attlen.toNat (splitValues att n raw)
      (chunkSample att sampleRows (splitValues att n raw)) := by
  have hlt := h.count_lt
  unfold encodeChunk at hb
  dsimp only at hb
  rw [mod_eq_of_lt hlt] at hb
  rcases Nat.eq_zero_or_pos n with rfl | hn
  · -- no values: nothing is encoded and no form is smaller
    rw [if_pos (Or.inr rfl)] at hb
    obtain rfl := Except.ok.inj hb
    have hvals : splitValues att 0 raw = [] := rfl
    have hsample : chunkSample att sampleRows ([] : List (List Byte)) = none := by
      simp [chunkSample, buildSample]
    rw [hvals, hsample]
    simp [RleStored, RleFits]
  · have hload := h.loaded (by omega)
    set vals := splitValues att n raw
    have hraw : raw.length = vals.length * att.attlen.toNat := by
      rw [hload.count]
      exact hload.fixed_len hpos
    have hlen := hload.length_eq hpos
    have hne : ¬ (raw.length = 0 ∨ n = 0) := by
      have hw1 : 1 ≤ att.attlen.toNat := by omega
      have := mul_le_mul hn hw1
      rw [hraw, hload.count]
      omega
    rw [if_neg hne] at hb
    -- with a sample only the candidates that it ranks best are tried
    cases hsample : chunkSample att sampleRows vals with
    | none =>
      rw [hsample] at hb
      -- a shared table is for varlena columns
      have hfsst : ∀ b' : Best, tryFsst att raw table b' = .ok b' := by
        intro b'
        unfold tryFsst
        cases table with
        | none => rfl
        | some tb => exact if_neg (by omega)
      cases hb' : tryAll att raw.length vals (candidateCodes att) ⟨.none, raw⟩ with
      | error e =>
        rw [hb'] at hb
        exact absurd hb (by simp [bind, Except.bind])
      | ok b' =>
        simp only [hb', bind, Except.bind, hfsst] at hb
        obtain rfl := Except.ok.inj hb
        exact tryAll_odd_code hpos hw hload.ne_nil hlen hraw hb'
    | some s =>
      have hs : buildSample vals sampleRows = some s := by
        unfold chunkSample at hsample
        split_ifs at hsample
        exact hsample
      obtain ⟨hsne, hsmem⟩ := buildSample_spec hs
      have hslen : ∀ v ∈ s, v.length = att.attlen.toNat := fun v hv => hlen v (hsmem v hv)
      obtain ⟨r, hr, -⟩ := rankSample_ok att s
      rw [hsample] at hb
      simp only [hr, bind, Except.bind] at hb
      exact tryAll_sampled_code hpos hw hload.ne_nil hlen hraw hsne hslen hr hb

/-! ### The round trip -/

/-- The round trip fails exactly on runs of an odd width. -/
theorem roundTrips_iff_not_rejectedRuns {att : Attribute} {raw : List Byte}
    (h : WellFormedStream att n raw)
    (htable : ∀ t, table = some t → ∃ corpus, fsstBuildChunkTable att corpus = .ok (some t))
    (sampleRows : ℕ) :
    ∃ b, encodeChunk sampleRows att raw n table = .ok b ∧
      (RoundTrips sampleRows att raw n table ↔ ¬ RejectedRuns att b) := by
  obtain ⟨b, hb, hdec⟩ := encodeChunk_decodes h htable sampleRows
  refine ⟨b, hb, ?_, ?_⟩
  · rintro ⟨b', hb', hdec'⟩ hrej
    rw [hb] at hb'
    obtain rfl := Except.ok.inj hb'
    exact not_decodes_of_rejectedRuns hrej h.count_lt raw table hdec'
  · intro hrej
    rcases hdec with hdec | hdec
    · exact ⟨b, hb, hdec⟩
    · exact absurd hdec hrej

/-- **The round trip holds exactly for the accepted widths and the streams that are not
stored as runs.** -/
theorem roundTrips_iff {att : Attribute} {n : ℕ} {raw : List Byte}
    (h : WellFormedStream att n raw) {table : Option (List Byte)}
    (htable : ∀ t, table = some t → ∃ corpus, fsstBuildChunkTable att corpus = .ok (some t))
    (sampleRows : ℕ) :
    RoundTrips sampleRows att raw n table ↔
      (att.attlen = 1 ∨ att.attlen = 2 ∨ att.attlen = 4 ∨ att.attlen = 8 ∨ att.attlen = -1 ∨
        ¬ RleStored att.attlen.toNat (splitValues att n raw)
          (chunkSample att sampleRows (splitValues att n raw))) := by
  obtain ⟨b, hb, hiff⟩ := roundTrips_iff_not_rejectedRuns h htable sampleRows
  rw [hiff]
  unfold RejectedRuns
  rcases h.attlen with hpos | hneg
  · by_cases hw : IntWidth att.attlen.toNat
    · have hlen : att.attlen = 1 ∨ att.attlen = 2 ∨ att.attlen = 4 ∨ att.attlen = 8 := by
        unfold IntWidth at hw
        omega
      refine iff_of_true (fun hrej => hrej.2.2 hw) ?_
      tauto
    · have hlen : att.attlen ≠ 1 ∧ att.attlen ≠ 2 ∧ att.attlen ≠ 4 ∧ att.attlen ≠ 8 ∧
          att.attlen ≠ -1 := by
        unfold IntWidth at hw
        omega
      have hcode := encodeChunk_code_eq_rle_iff h hpos hw hb
      tauto
  · exact iff_of_true (fun hrej => by omega) (by tauto)

/-- Six equal `int4` values, which are stored as one run, survive the round trip. -/
theorem roundTrips_int4 :
    RoundTrips 2048 int4Attribute (List.replicate 6 [7, 0, 0, 0]).flatten 6 none :=
  (roundTrips_iff ⟨Or.inl ⟨by decide, by decide⟩, by decide⟩ (by simp) 2048).mpr
    (Or.inr (Or.inr (Or.inl rfl)))

/-- A `uuid` column: sixteen bytes, by reference. -/
def uuidAttribute : Attribute := ⟨16, false, 2950, by decide, by decide⟩

/-- Three equal `uuid` values are stored as one run of 20 bytes, which the decoder
refuses. -/
theorem not_roundTrips_uuid :
    WellFormedStream uuidAttribute 3 (List.replicate 48 0) ∧
      ¬ RoundTrips 2048 uuidAttribute (List.replicate 48 0) 3 none := by
  have hwf : WellFormedStream uuidAttribute 3 (List.replicate 48 0) :=
    ⟨Or.inl ⟨by decide, by decide⟩, by decide⟩
  refine ⟨hwf, ?_⟩
  have htable : ∀ t, (none : Option (List Byte)) = some t →
      ∃ corpus, fsstBuildChunkTable uuidAttribute corpus = .ok (some t) := by simp
  obtain ⟨b, hb, hiff⟩ := roundTrips_iff_not_rejectedRuns hwf htable 2048
  rw [hiff, not_not]
  refine ⟨?_, by decide, by decide⟩
  rw [encodeChunk_code_eq_rle_iff hwf (by decide) (by decide) hb]
  decide

end Encoding
end PgColumnar
