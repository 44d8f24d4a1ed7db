import PgColumnar.Thrift.Compact

/-!
# Thrift values

What the reader makes of a value that is encoded by the specification, or written with the writer.

## Main definitions

* `TValue`, `Encodes`, `Puts` — values, their encodings, and those the writer puts.

## Main results

* `reads_thriftSkip` — a skip passes over the value.
* `reads_readValue` — the value is read back.
-/

namespace PgColumnar.Thrift

open Bytes Cursor Steps List Nat
open Cursor.Parser (Sequence)
open Varint (zigzag unzigzag unzigzag_zigzag)

/-! ### The writer -/

/-- `PgColumnarThriftPutVarint` -/
def putVarint (v : ℕ) : List Byte := Varint.put v

/-- `PgColumnarThriftPutZigzag32`, `PgColumnarThriftPutZigzag64` -/
def putZigzag (v : ℤ) : List Byte := putVarint (zigzag v)

/-- `PgColumnarThriftPutField` -/
def putField (lastId id : ℤ) (type : ℕ) : List Byte :=
  if 0 < id - lastId ∧ id - lastId ≤ 15 then [BitVec.ofNat 8 ((id - lastId).toNat * 16 + type)]
  else BitVec.ofNat 8 type :: putZigzag id

/-- `PgColumnarThriftPutListHeader` -/
def putListHeader (size elemType : ℕ) : List Byte :=
  if size < 15 then [BitVec.ofNat 8 (size * 16 + elemType)]
  else BitVec.ofNat 8 (240 + elemType) :: putVarint size

/-- `PgColumnarThriftPutStop` -/
def putStop : List Byte := [0]

/-! ### Values -/

inductive TValue
  | bool (b : Bool)
  | byte (b : Byte)
  | i16 (z : ℤ)
  | i32 (z : ℤ)
  | i64 (z : ℤ)
  | double (bits : List Byte)
  | binary (s : List Byte)
  | list (etype : ℕ) (elems : List TValue)
  | set (etype : ℕ) (elems : List TValue)
  | map (ktype vtype : ℕ) (entries : List (TValue × TValue))
  | struct (fields : List (ℤ × TValue))
  | uuid (bits : List Byte)

/-- The type in a field's header; a boolean field has its value there. -/
def TValue.type : TValue → ℕ
  | .bool true => 1
  | .bool false => 2
  | .byte _ => 3
  | .i16 _ => 4
  | .i32 _ => 5
  | .i64 _ => 6
  | .double _ => 7
  | .binary _ => 8
  | .list _ _ => 9
  | .set _ _ => 10
  | .map _ _ _ => 11
  | .struct _ => 12
  | .uuid _ => 13

theorem TValue.type_range (v : TValue) : 0 < v.type ∧ v.type ≤ 13 := by
  cases v with
  | bool b => cases b <;> decide
  | _ => exact ⟨by simp [TValue.type], by simp [TValue.type]⟩

def VarintBytes (n : ℕ) (bs : List Byte) : Prop := Varint.Encodes bs n ∧ bs.length ≤ 10 ∧ n < 2 ^ 64

def ZigzagBytes (z : ℤ) (bs : List Byte) : Prop := VarintBytes (zigzag z) bs

/-- A field's header: a short form for a small step up, else the id in full. -/
inductive FieldHeader (lastId id : ℤ) (type : ℕ) : List Byte → Prop
  | short {b : Byte} : 0 < id - lastId → id - lastId ≤ 15 →
    (b.toNat : ℤ) = (id - lastId) * 16 + type →
      FieldHeader lastId id type [b]
  | long {b : Byte} {zb : List Byte} : b.toNat = type → ZigzagBytes id zb →
    FieldHeader lastId id type (b :: zb)

inductive ListHeader (size etype : ℕ) : List Byte → Prop
  | short {b : Byte} : size < 15 → b.toNat = size * 16 + etype → ListHeader size etype [b]
  | long {b : Byte} {vb : List Byte} : b.toNat = 240 + etype → VarintBytes size vb →
    ListHeader size etype (b :: vb)

/-- The fields of a struct and its stop, each behind its header. -/
inductive Fields (H : ℤ → ℤ → ℕ → List Byte → Prop) (R : TValue → List Byte → Prop) :
    ℤ → List (ℤ × TValue) → List Byte → Prop
  | stop {lastId : ℤ} : Fields H R lastId [] putStop
  | cons {lastId id : ℤ} {v : TValue} {fields : List (ℤ × TValue)} {hb vb rest : List Byte} :
      H lastId id v.type hb → R v vb → Fields H R id fields rest →
        Fields H R lastId ((id, v) :: fields) (hb ++ (vb ++ rest))

def IsInt16 (z : ℤ) : Prop := -32768 ≤ z ∧ z ≤ 32767

/-- The element of a list: a boolean takes a byte there, and either boolean type names it. -/
def Element (etype : ℕ) (R : TValue → List Byte → Prop) (v : TValue) (bs : List Byte) : Prop :=
  match v with
  | .bool _ => IsBool etype ∧ bs.length = 1
  | _ => etype = v.type ∧ R v bs

/-- The encodings of a field's value, nested less deep than `depth`. -/
def Encodes : ℕ → TValue → List Byte → Prop
  | 0, _, _ => False
  | depth + 1, v, bs =>
    match v with
    | .bool _ => bs = []
    | .byte b => bs = [b]
    | .i16 z => -2 ^ 15 ≤ z ∧ z < 2 ^ 15 ∧ ZigzagBytes z bs
    | .i32 z => -2 ^ 31 ≤ z ∧ z < 2 ^ 31 ∧ ZigzagBytes z bs
    | .i64 z => ZigzagBytes z bs
    | .double bits => bs = bits ∧ bits.length = 8
    | .uuid bits => bs = bits ∧ bits.length = 16
    | .binary s => ∃ lb, VarintBytes s.length lb ∧ bs = lb ++ s
    | .list etype elems | .set etype elems =>
      ∃ hb ub, bs = hb ++ ub ∧ etype < 16 ∧ elems.length < 2 ^ 31 ∧
        ListHeader elems.length etype hb ∧ Sequence (Element etype (Encodes depth)) elems ub
    | .map ktype vtype entries => entries.length < 2 ^ 31 ∧ ∃ sb, VarintBytes entries.length sb ∧
        (entries = [] ∧ bs = sb ∨ entries ≠ [] ∧ ∃ tb ub, bs = sb ++ (tb :: ub) ∧ vtype < 16 ∧
          (tb : Byte).toNat = ktype * 16 + vtype ∧
          Sequence (fun kv bs => ∃ kb vb, bs = kb ++ vb ∧ Element ktype (Encodes depth) kv.1 kb ∧
            Element vtype (Encodes depth) kv.2 vb) entries ub)
    | .struct fields => Fields (fun lastId id type hb => IsInt16 id ∧ FieldHeader lastId id type hb)
        (Encodes depth) 0 fields bs

/-- What the writer's functions put for a field's value. -/
def Puts : ℕ → TValue → List Byte → Prop
  | 0, _, _ => False
  | depth + 1, v, bs =>
    match v with
    | .bool _ => bs = []
    | .i32 z => -2 ^ 31 ≤ z ∧ z < 2 ^ 31 ∧ bs = putZigzag z
    | .i64 z => -2 ^ 63 ≤ z ∧ z < 2 ^ 63 ∧ bs = putZigzag z
    | .binary s => s.length < 2 ^ 31 ∧ bs = putVarint s.length ++ s
    | .list etype elems => ∃ ub, bs = putListHeader elems.length etype ++ ub ∧ etype < 16 ∧
        elems.length < 2 ^ 31 ∧
        Sequence (fun v vb => v.type = etype ∧ ¬ IsBool etype ∧ Puts depth v vb) elems ub
    | .struct fields => Fields (fun lastId id type hb => IsInt16 id ∧ hb = putField lastId id type)
        (Puts depth) 0 fields bs
    | _ => False

/-- A field read behind its header, and the fields before it. -/
def readField (read : ℕ → Reader TValue) (fields : List (ℤ × TValue)) (ftype : ℕ) (fid : ℤ) :
    Reader (List (ℤ × TValue)) := do
  let v ← read ftype
  pure (fields ++ [(fid, v)])

/-- A value read with the reader's functions. -/
def readValue (buf : List Byte) : ℕ → ℕ → Reader TValue
  | 0, _ => throw .stackDepth
  | depth + 1, ftype =>
    match ftype with
    | 1 => pure (.bool true)
    | 2 => pure (.bool false)
    | 5 => do
      let z ← thriftZigzag buf
      pure (.i32 z)
    | 6 => do
      let z ← thriftZigzag buf
      pure (.i64 z)
    | 8 => do
      let p ← thriftBytes buf
      pure (.binary (p.getD []))
    | 9 => do
      let (size, etype) ← thriftListHeader buf
      let vs ← elements etype false (fun vs => do
        let v ← readValue buf depth etype
        pure (vs ++ [v])) size []
      pure (.list etype vs)
    | 12 => do
      let fields ← structLoop buf (readField (readValue buf depth)) []
      pure (.struct fields)
    | _ => do
      setError
      pure (.bool false)

/-! ### Reading what stands in the buffer -/

/-- Wherever the bytes stand, the reader takes exactly them, without an error. -/
def Reads {α : Type} (buf : List Byte) (x : Reader α) (bs : List Byte) (a : α) : Prop :=
  ∀ pos ws, At buf pos bs → ∃ ws', x ⟨pos, false, ws⟩ = .ok (a, ⟨pos + bs.length, false, ws'⟩)

section Reads

variable {buf as bs : List Byte} {α β σ : Type} {x : Reader α} {f : α → Reader β} {a : α} {b : β}

theorem reads_pure (a : α) : Reads buf (pure a : Reader α) [] a := fun _ ws _ => ⟨ws, rfl⟩

theorem Reads.bind (hx : Reads buf x as a) (hf : Reads buf (f a) bs b) :
    Reads buf (x >>= f) (as ++ bs) b := by
  intro pos ws hat
  obtain ⟨ha, hb⟩ := at_append.mp hat
  obtain ⟨ws', hrun⟩ := hx pos ws ha
  obtain ⟨ws'', hrun'⟩ := hf (pos + as.length) ws' hb
  refine ⟨ws'', ?_⟩
  rw [bind_run, hrun]
  dsimp only
  rw [hrun', length_append, add_assoc]

theorem Reads.last (hx : Reads buf x as a) (hf : Reads buf (f a) [] b) :
    Reads buf (x >>= f) as b := by
  have h := hx.bind hf
  rwa [append_nil] at h

theorem Reads.get {g : TCReader → Reader α} (h : ∀ r, r.error = false → g r = x)
    (hx : Reads buf x bs a) :
    Reads buf (get >>= g) bs a := by
  intro pos ws hat
  obtain ⟨ws', hrun⟩ := hx pos ws hat
  refine ⟨ws', ?_⟩
  show g ⟨pos, false, ws⟩ _ = _
  rw [h _ rfl, hrun]

theorem reads_thriftVarint {n : ℕ} (h : VarintBytes n bs) : Reads buf (thriftVarint buf) bs n := by
  obtain ⟨henc, hlen, hn⟩ := h
  intro pos ws hat
  obtain ⟨post, hdrop⟩ := hat.drop
  have hscan : Varint.scan 64 63 (bs ++ post) 0 0 = (.done, (0 + 2 ^ 0 * n) % 2 ^ 64, bs.length) :=
    Varint.scan_of_encodes (by decide) henc post (by decide) (by omega)
  rw [pow_zero, one_mul, zero_add, mod_eq_of_lt hn] at hscan
  refine ⟨ws, ?_⟩
  simp only [thriftVarint, hdrop, hscan, TCReader.moved]

theorem reads_thriftZigzag {z : ℤ} (h : ZigzagBytes z bs) : Reads buf (thriftZigzag buf) bs z := by
  have hread : Reads buf (thriftZigzag buf) bs (unzigzag (zigzag z)) :=
    (reads_thriftVarint h).last (reads_pure _)
  rwa [unzigzag_zigzag] at hread

theorem reads_thriftByte (b : Byte) : Reads buf (thriftByte buf) [b] (some b.toNat) := by
  intro pos ws hat
  refine ⟨ws, ?_⟩
  obtain ⟨pre, post, rfl, rfl⟩ := hat
  simp [thriftByte, TCReader.moved]

theorem reads_thriftAdvance (bs : List Byte) : Reads buf (thriftAdvance buf bs.length) bs () := by
  intro pos ws hat
  have hle := hat.le
  refine ⟨ws, ?_⟩
  rw [thriftAdvance, if_neg (by dsimp only; omega)]
  rfl

/-- All bytes are passed, and the length is cut to 32 bits. -/
theorem reads_thriftBytes {s lb : List Byte} (h : VarintBytes s.length lb) :
    Reads buf (thriftBytes buf) (lb ++ s) (some (s.take (s.length % 4294967296))) := by
  refine (reads_thriftVarint h).bind fun pos ws hat => ⟨ws, ?_⟩
  have hle := hat.le
  obtain ⟨post, hdrop⟩ := hat.drop
  have hgood : ¬ (false = true ∨ buf.length - pos < s.length) := by
    rw [not_or]
    exact ⟨by decide, by omega⟩
  show (if false = true ∨ buf.length - pos < s.length then _ else _) = _
  rw [if_neg hgood]
  simp only [hdrop, take_append_of_le_length (mod_le _ _), TCReader.moved]

theorem castInt_eq {z : ℤ} (hlo : -2 ^ 31 ≤ z) (hhi : z < 2 ^ 31) : castInt z = z := by
  rw [castInt, Int.bmod_def]
  split <;> omega

variable {lastId : ℤ}

theorem reads_thriftField {id : ℤ} {type : ℕ} {hb : List Byte} (hid : IsInt16 id) (htype : 0 < type)
    (hle : type ≤ 13) (h : FieldHeader lastId id type hb) :
    Reads buf (thriftField buf lastId) hb (type, id) := by
  have hcast : castInt id = id := castInt_eq (by have := hid.1; omega) (by have := hid.2; omega)
  cases h with
  | @short b hpos hstep hb =>
    refine (reads_thriftByte b).last ?_
    have hdiv : b.toNat / 16 = (id - lastId).toNat := by omega
    have hmod : b.toNat % 16 = type := by omega
    have hsum : lastId + ((b.toNat / 16 : ℕ) : ℤ) = id := by omega
    dsimp only
    rw [if_neg (by omega), if_neg (by omega), if_pos (by omega), hmod, hsum, hcast]
    exact reads_pure _
  | @long b zb hb hz =>
    rw [← singleton_append]
    refine (reads_thriftByte b).bind ?_
    have hmod : b.toNat % 16 = type := by omega
    dsimp only
    rw [if_neg (by omega), if_neg (by omega), if_neg (by omega), hmod]
    refine (reads_thriftZigzag hz).last ?_
    rw [hcast]
    exact reads_pure _

variable {etype : ℕ}

theorem reads_thriftListHeader {size : ℕ} {hb : List Byte} (hetype : etype < 16)
    (hsize : size < 2 ^ 31)
    (h : ListHeader size etype hb) : Reads buf (thriftListHeader buf) hb (size, etype) := by
  cases h with
  | @short b hlt hb =>
    refine (reads_thriftByte b).last ?_
    have hdiv : b.toNat / 16 = size := by omega
    have hmod : b.toNat % 16 = etype := by omega
    dsimp only
    rw [if_neg (by omega), hdiv, hmod]
    exact reads_pure _
  | @long b vb hb hv =>
    rw [← singleton_append]
    refine (reads_thriftByte b).bind ?_
    have hmod : b.toNat % 16 = etype := by omega
    dsimp only
    rw [if_pos (by omega), hmod]
    refine (reads_thriftVarint hv).last ?_
    rw [mod_eq_of_lt (by omega)]
    exact reads_pure _

variable {R : TValue → List Byte → Prop}

/-- The loop over a struct's fields. -/
theorem reads_structLoop {fields : List (ℤ × TValue)} (body : σ → ℕ → ℤ → Reader σ)
    (next : σ → ℤ × TValue → σ)
    (hbody : ∀ s id v bs, R v bs → Reads buf (body s v.type id) bs (next s (id, v)))
    (h : Fields (fun lastId id type hb => IsInt16 id ∧ FieldHeader lastId id type hb) R 0 fields bs)
    (s : σ) :
    Reads buf (structLoop buf body s) bs (fields.foldl next s) := by
  have haux : ∀ {lastId fields bs},
      Fields (fun lastId id type hb => IsInt16 id ∧
        FieldHeader lastId id type hb) R lastId fields bs →
        ∀ fuel, bs.length < fuel → ∀ s,
          Reads buf (structLoopAux buf body fuel lastId s) bs (fields.foldl next s) := by
    intro lastId fields bs h
    induction h with
    | @stop lastId =>
      intro fuel hfuel s
      obtain ⟨fuel, rfl⟩ := exists_eq_succ_of_ne_zero (ne_of_gt (zero_lt_of_lt hfuel))
      have hstop : Reads buf (thriftField buf lastId) putStop (0, lastId) :=
        (reads_thriftByte 0).last (reads_pure _)
      rw [structLoopAux]
      refine hstop.last (Reads.get (x := pure s) (fun r _ => ?_) (reads_pure s))
      rw [if_pos (.inl rfl)]
    | @cons lastId id v fields hb vb rest hhead hv _ ih =>
      intro fuel hfuel s
      obtain ⟨fuel, rfl⟩ := exists_eq_succ_of_ne_zero (ne_of_gt (zero_lt_of_lt hfuel))
      obtain ⟨hpos, hle⟩ := v.type_range
      have hhb : 0 < hb.length := by
        cases hhead.2 <;> simp
      simp only [length_append] at hfuel
      rw [structLoopAux]
      refine (reads_thriftField hhead.1 hpos hle hhead.2).bind (Reads.get (fun r hr => ?_)
        ((hbody s id v vb hv).bind (ih fuel (by omega) _)))
      rw [if_neg (by simp [hr, ne_of_gt hpos])]
  intro pos ws hat
  have hlen := hat.le
  exact haux h _ (by dsimp only; omega) s pos ws hat

theorem reads_elements {γ : Type} {R : γ → List Byte → Prop} {step : σ → Reader σ}
    (next : σ → γ → σ)
    (hstep : ∀ s c bs, R c bs → Reads buf (step s) bs (next s c)) {cs : List γ}
    (h : Sequence R cs bs)
    (etype : ℕ) (asField : Bool) (s : σ) :
    Reads buf (elements etype asField step cs.length s) bs (cs.foldl next s) := by
  have hone : ∀ s c bs, R c bs → Reads buf (element etype asField step s) bs (next s c) := by
    intro s c bs hc pos ws hat
    obtain ⟨ws', hrun⟩ := hstep s c bs hc pos ws hat
    refine ⟨ws' ++ [⟨etype, asField, pos, pos + bs.length⟩], ?_⟩
    rw [element_run, hrun]
  induction h generalizing s with
  | nil => exact reads_pure s
  | @cons c cs b bs hc _ ih =>
    rw [length_cons, elements]
    refine Reads.get (fun r hr => ?_) ((hone s c b hc).bind (ih _))
    rw [hr]
    rfl

/-! ### Skipping -/

variable {v : TValue}

/-- A boolean is skipped as one byte, any other element as a field of its type. -/
theorem reads_skipElement {skip : ℕ → Reader Unit}
    (hskip : ∀ v bs, R v bs → Reads buf (skip v.type) bs ())
    (h : Element etype R v bs) : Reads buf (skipElement buf skip etype) bs () := by
  unfold Element at h
  split at h
  · obtain ⟨hbool, hlen⟩ := h
    have hread : Reads buf (thriftAdvance buf bs.length) bs () := reads_thriftAdvance bs
    rw [hlen] at hread
    rw [skipElement, if_pos hbool]
    exact hread
  · next hnot =>
    obtain ⟨rfl, hR⟩ := h
    have hne : ¬ IsBool v.type := by
      cases v with
      | bool b => exact absurd rfl (hnot b)
      | _ => simp [IsBool, TValue.type]
    rw [skipElement, if_neg hne]
    exact hskip v bs hR

/-- **A skip advances exactly past the value**, whatever its nesting. -/
theorem reads_thriftSkip {depth : ℕ} (h : Encodes depth v bs) :
    Reads buf (thriftSkip buf depth v.type) bs () := by
  induction depth generalizing v bs with
  | zero => exact h.elim
  | succ depth ih =>
    -- lists and sets have one layout
    have hlist : ∀ {etype : ℕ} {elems : List TValue}, (∃ hb ub, bs = hb ++ ub ∧ etype < 16 ∧
        elems.length < 2 ^ 31 ∧ ListHeader elems.length etype hb ∧
          Sequence (Element etype (Encodes depth)) elems ub) →
        Reads buf (skipList buf (thriftSkip buf depth)) bs () := by
      intro etype elems h
      obtain ⟨hb, ub, rfl, hetype, hlen, hhead, hseq⟩ := h
      refine (reads_thriftListHeader hetype hlen hhead).bind ?_
      exact reads_elements (fun _ _ => ())
        (fun _ _ _ hv => reads_skipElement (fun _ _ => ih) hv) hseq etype false ()
    cases v with
    | bool b =>
      obtain rfl : bs = [] := h
      cases b <;> exact reads_pure ()
    | byte b =>
      obtain rfl : bs = [b] := h
      exact reads_thriftAdvance [b]
    | i16 z | i32 z =>
      obtain ⟨-, -, hz⟩ := h
      exact (reads_thriftZigzag hz).last (reads_pure ())
    | i64 z => exact (reads_thriftZigzag h).last (reads_pure ())
    | double bits | uuid bits =>
      obtain ⟨rfl, hlen⟩ := h
      have hread : Reads buf (thriftAdvance buf bs.length) bs () := reads_thriftAdvance bs
      rw [hlen] at hread
      exact hread
    | binary s =>
      obtain ⟨lb, hlb, rfl⟩ := h
      exact (reads_thriftBytes hlb).last (reads_pure ())
    | list etype elems | set etype elems => exact hlist h
    | map ktype vtype entries =>
      obtain ⟨hlen, sb, hsb, hentries⟩ := h
      -- the length is cut to 32 bits, which it fits
      have hmod : entries.length % 4294967296 = entries.length := mod_eq_of_lt (by omega)
      have hread : Reads buf (thriftVarint buf) sb entries.length := reads_thriftVarint hsb
      obtain ⟨rfl, rfl⟩ | ⟨hne, tb, ub, rfl, hvtype, htb, hseq⟩ := hentries
      · refine hread.last (Reads.get (x := pure ()) (fun r _ => ?_) (reads_pure ()))
        rw [if_pos (.inr rfl)]
      · have hpos := length_pos_iff.mpr hne
        have hk : tb.toNat / 16 = ktype := by omega
        have hv : tb.toNat % 16 = vtype := by omega
        have hentry : Reads buf (skipEntries buf (thriftSkip buf depth) entries.length) (tb :: ub)
          () := by
          rw [← singleton_append]
          refine (reads_thriftByte tb).bind ?_
          dsimp only
          rw [hk, hv]
          refine reads_elements (fun _ _ => ()) (fun _ kv bs hkv => ?_) hseq ktype false ()
          obtain ⟨kb, vb, rfl, hkb, hvb⟩ := hkv
          exact (reads_skipElement (fun _ _ => ih) hkb).bind (reads_skipElement (fun _ _ => ih) hvb)
        refine hread.bind (Reads.get (fun r hr => ?_) hentry)
        rw [hmod, if_neg]
        rw [not_or]
        exact ⟨by simp [hr], ne_of_gt hpos⟩
    | struct fields =>
      exact reads_structLoop (fun _ ftype _ => thriftSkip buf depth ftype) (fun _ _ => ())
        (fun _ _ _ _ hv => ih hv) h ()

/-! ### Reading back -/

theorem zigzagBytes_put {z : ℤ} (hlo : -2 ^ 63 ≤ z) (hhi : z < 2 ^ 63) :
    ZigzagBytes z (putZigzag z) := by
  have hlt : zigzag z < 2 ^ 64 := by
    unfold zigzag
    split <;> omega
  exact ⟨Varint.encodes_put hlt, Varint.length_put_le _, hlt⟩

theorem varintBytes_put {n : ℕ} (h : n < 2 ^ 64) : VarintBytes n (putVarint n) :=
  ⟨Varint.encodes_put h, Varint.length_put_le _, h⟩

theorem toNat_ofNat_byte {n : ℕ} (h : n < 256) : (BitVec.ofNat 8 n).toNat = n := by
  rw [BitVec.toNat_ofNat]
  exact mod_eq_of_lt h

theorem fieldHeader_put {id : ℤ} {type : ℕ} (hid : IsInt16 id) (htype : type ≤ 13) :
    FieldHeader lastId id type (putField lastId id type) := by
  unfold putField
  split
  · next hstep =>
    refine .short hstep.1 hstep.2 ?_
    rw [toNat_ofNat_byte (by omega)]
    omega
  · refine .long (toNat_ofNat_byte (by omega)) (zigzagBytes_put ?_ ?_)
    · have hlo := hid.1
      omega
    · have hhi := hid.2
      omega

theorem listHeader_put {size : ℕ} (hetype : etype < 16) (hsize : size < 2 ^ 31) :
    ListHeader size etype (putListHeader size etype) := by
  unfold putListHeader
  split
  · next hlt => exact .short hlt (toNat_ofNat_byte (by omega))
  · exact .long (toNat_ofNat_byte (by omega)) (varintBytes_put (by omega))

theorem Fields.imp {fields : List (ℤ × TValue)} {H H' : ℤ → ℤ → ℕ → List Byte → Prop}
    {R' : TValue → List Byte → Prop}
    (hH : ∀ lastId id (v : TValue) hb, H lastId id v.type hb → H' lastId id v.type hb)
    (hR : ∀ v bs, R v bs → R' v bs) (h : Fields H R lastId fields bs) :
    Fields H' R' lastId fields bs := by
  induction h with
  | stop => exact .stop
  | cons hhead hv _ ih => exact .cons (hH _ _ _ _ hhead) (hR _ _ hv) ih

theorem foldl_snoc (as : List α) : as.foldl (fun bs a => bs ++ [a]) [] = as := by
  rw [foldl_append_eq_append, ← flatMap_def, flatMap_singleton', nil_append]

/-- **What was written is read back.** -/
theorem reads_readValue {depth : ℕ} (h : Puts depth v bs) :
    Reads buf (readValue buf depth v.type) bs v := by
  induction depth generalizing v bs with
  | zero => exact h.elim
  | succ depth ih =>
    cases v with
    | bool b =>
      obtain rfl : bs = [] := h
      cases b <;> exact reads_pure _
    | i32 z =>
      obtain ⟨hlo, hhi, rfl⟩ := h
      exact (reads_thriftZigzag (zigzagBytes_put (by omega) (by omega))).last (reads_pure _)
    | i64 z =>
      obtain ⟨hlo, hhi, rfl⟩ := h
      exact (reads_thriftZigzag (zigzagBytes_put hlo hhi)).last (reads_pure _)
    | binary s =>
      obtain ⟨hlen, rfl⟩ := h
      have hput : VarintBytes s.length (putVarint s.length) := varintBytes_put (by omega)
      have hread : Reads buf (thriftBytes buf) _ _ := reads_thriftBytes hput
      rw [mod_eq_of_lt (by omega), take_length] at hread
      exact hread.last (reads_pure _)
    | list etype elems =>
      obtain ⟨ub, rfl, hetype, hlen, hseq⟩ := h
      refine (reads_thriftListHeader hetype hlen (listHeader_put hetype hlen)).bind ?_
      have hstep : ∀ (vs : List TValue) (v : TValue) (bs : List Byte),
          v.type = etype ∧ ¬ IsBool etype ∧ Puts depth v bs →
            Reads buf (readValue buf depth etype >>= fun v => pure (vs ++ [v])) bs (vs ++ [v]) := by
        intro vs v bs hv
        obtain ⟨rfl, -, hput⟩ := hv
        exact (ih hput).last (reads_pure _)
      have hread := reads_elements (fun vs v => vs ++ [v]) hstep hseq etype false []
      rw [foldl_snoc] at hread
      exact hread.last (reads_pure _)
    | struct fields =>
      have hfields : Fields (fun lastId id type hb => IsInt16 id ∧ FieldHeader lastId id type hb)
        (Puts depth) 0
          fields bs := by
        refine Fields.imp (fun lastId id v hb hhead => ?_) (fun _ _ hv => hv) h
        obtain ⟨hid, rfl⟩ := hhead
        exact ⟨hid, fieldHeader_put hid v.type_range.2⟩
      have hstep : ∀ (fields : List (ℤ × TValue)) (id : ℤ) (v : TValue) (bs : List Byte),
        Puts depth v bs →
          Reads buf (readField (readValue buf depth) fields v.type id) bs (fields ++ [(id, v)]) :=
        fun fields id v bs hv => (ih hv).last (reads_pure _)
      have hread := reads_structLoop (readField (readValue buf depth))
        (fun fields f => fields ++ [f]) hstep hfields []
      rw [foldl_snoc] at hread
      exact hread.last (reads_pure _)
    | _ => exact h.elim

end Reads

end PgColumnar.Thrift
