import PgColumnar.Iceberg.Deletes
import PgColumnar.Lib.Parser
import PgColumnar.Lib.Varint

/-!
# Avro values and how they are skipped

A manifest is read against the schema found in the file.  A field that the reader does not know is
skipped, which must take exactly the bytes of its value.  The reader's sticky error flag is a
failure of the parser here: every caller tests it before it uses a value.

## Main definitions

* `AvSchema`, `AvValue`, `Encodes` — schemas, values, and the bytes of a value.
* `avSkip` — the reader that passes over a value.

## Main results

* `parses_avSkip` — a skip takes exactly the bytes of the value.
-/

namespace PgColumnar.Avro

open Bytes Cursor Cursor.Parser Iceberg List Nat
open Varint (zigzag unzigzag unzigzag_zigzag)

/-! ### Errors -/

inductive AvError
  | fault
  | unfinished
  | malformed
  | stackDepth
  | invalidField (what : String) (path : Option CString) (field : String) (v : ℤ)
  | schema
  | badMagic
  | header
  | codec (name : CString)
  | jsonSyntax
  | numericRange
  | notRecord
  | dataBlock
  | inflate
  | blockSize
  | totalSize
  | entries
  | corruptEntry
  | syncMarker

/-- What must not happen: a read outside the buffer, or a loop that does not end. -/
def AvError.Bad (e : AvError) : Prop := e = .fault ∨ e = .unfinished

abbrev AvReader (α : Type) := Parser AvError α

/-! ### The bounded reader -/

/-- `av_varint` -/
def avVarint : AvReader ℕ := fun buf pos =>
  match Varint.scan 64 63 (buf.drop pos) 0 0 with
  | (.done, v, k) => .ok (v, pos + k)
  | _ => .error .malformed

/-- `av_long` -/
def avLong : AvReader ℤ := do
  let u ← avVarint
  return unzigzag u

/-- `av_take` -/
def avTake (n : ℤ) : AvReader (List Byte) := fun buf pos =>
  if n < 0 ∨ (buf.length : ℤ) - pos < n then .error .malformed
  else
    match takeAt buf pos n.toNat with
    | .ok bs => .ok (bs, pos + n.toNat)
    | .error _ => .error .fault

/-- `av_bytes` -/
def avBytes : AvReader (List Byte) := do
  let n ← avLong
  avTake n

/-- `av_cstring` -/
def avCstring : AvReader CString := do
  let bs ← avBytes
  return textToCstring bs

/-! ### Schemas and values -/

/-- `AvSchema`; the decimal annotation is the scale. -/
inductive AvSchema
  | null
  | bool
  | int
  | long
  | float
  | double
  | bytes (decimal : Option ℕ)
  | string
  | enum
  | fixed (size : ℕ) (decimal : Option ℕ)
  | record (fields : List (CString × AvSchema))
  | array (items : AvSchema)
  | map (values : AvSchema)
  | union (branches : List AvSchema)

def AvSchema.isNull : AvSchema → Bool
  | .null => true
  | _ => false

inductive AvValue
  | null
  | bool (b : Bool)
  /-- of an int, a long or an enum -/
  | int (z : ℤ)
  /-- of a float, a double, a fixed, bytes or a string -/
  | raw (bs : List Byte)
  | record (values : List AvValue)
  | array (items : List AvValue)
  | map (entries : List (List Byte × AvValue))
  | union (branch : ℕ) (value : AvValue)

/-! ### Blocks -/

/-- The loop over blocks: a count of zero ends it, a negative count is followed by a size in
bytes. -/
def avBlockLoop {σ : Type} (cap : ℤ) (size : σ → ℤ) (elem : σ → AvReader σ) : ℕ → σ → AvReader σ
  | 0, _ => fail .unfinished
  | fuel + 1, s => do
    let cnt ← avLong
    if cnt = 0 then pure s
    else if cnt < 0 then
      if cnt < -cap then fail .malformed
      else
        let _ ← avLong
        if cap < -cnt ∨ cap < size s + -cnt then fail .malformed
        else
          let s ← many elem (-cnt).toNat s
          avBlockLoop cap size elem fuel s
    else if cap < cnt ∨ cap < size s + cnt then fail .malformed
    else
      let s ← many elem cnt.toNat s
      avBlockLoop cap size elem fuel s

/-- Every block takes at least the byte of its count. -/
def avBlocks {σ : Type} (cap : ℤ) (size : σ → ℤ) (elem : σ → AvReader σ) (s : σ) : AvReader σ :=
  withLeft fun left => avBlockLoop cap size elem (left + 1) s

def avMaxObjects : ℤ := 50 * 1000 * 1000

/-- The branch that a union's value is of. -/
def avBranch (branches : List AvSchema) : AvReader AvSchema := do
  let idx ← avLong
  if idx < 0 then fail .malformed
  else
    match branches[idx.toNat]? with
    | none => fail .malformed
    | some s => pure s

/-- `av_skip`, with the number of levels that the stack has room for. -/
def avSkip : ℕ → AvSchema → AvReader Unit
  | 0, _ => fail .stackDepth
  | depth + 1, s =>
    match s with
    | .null => pure ()
    | .bool => do
      let _ ← avTake 1
    | .int | .long | .enum => do
      let _ ← avLong
    | .float => do
      let _ ← avTake 4
    | .double => do
      let _ ← avTake 8
    | .bytes _ | .string => do
      let _ ← avBytes
    | .fixed size _ => do
      let _ ← avTake size
    | .record fields => each (fun f => avSkip depth f.2) fields
    | .union branches => do
      let s ← avBranch branches
      avSkip depth s
    | .array items => avBlocks avMaxObjects (fun _ => 0) (fun _ => avSkip depth items) ()
    | .map values =>
      avBlocks avMaxObjects (fun _ => 0) (fun _ => do
        let _ ← avBytes
        avSkip depth values) ()

/-- `av_unwrap_union`: the schema of the value, and whether it is a union's null. -/
def avUnwrapUnion (s : AvSchema) : AvReader (AvSchema × Bool) :=
  match s with
  | .union branches => do
    let t ← avBranch branches
    pure (t, t.isNull)
  | _ => pure (s, false)

/-! ### Encodings -/

def IsInt64 (z : ℤ) : Prop := -2 ^ 63 ≤ z ∧ z < 2 ^ 63

def LongBytes (z : ℤ) (bs : List Byte) : Prop :=
  Varint.Encodes bs (zigzag z) ∧ bs.length ≤ 10 ∧ IsInt64 z

/-- A length and as many bytes. -/
def BytesBytes (v bs : List Byte) : Prop := ∃ lb, LongBytes v.length lb ∧ bs = lb ++ v

/-- The blocks of a collection, each of at most `cap` items. -/
inductive Blocks {α : Type} (R : α → List Byte → Prop) (cap : ℤ) : List α → List Byte → Prop
  | stop {bs : List Byte} : LongBytes 0 bs → Blocks R cap [] bs
  | plain {us vs : List α} {cb ub rest : List Byte} : us ≠ [] → us.length ≤ cap →
      LongBytes us.length cb → Sequence R us ub → Blocks R cap vs rest →
        Blocks R cap (us ++ vs) (cb ++ (ub ++ rest))
  | sized {us vs : List α} {size : ℤ} {cb sb ub rest : List Byte} : us ≠ [] → us.length ≤ cap →
      LongBytes (-us.length) cb → LongBytes size sb → Sequence R us ub → Blocks R cap vs rest →
        Blocks R cap (us ++ vs) (cb ++ (sb ++ (ub ++ rest)))

/-- The encodings of a value, nested less deep than `depth`. -/
def Encodes : ℕ → AvSchema → AvValue → List Byte → Prop
  | 0, _, _, _ => False
  | depth + 1, s, v, bs =>
    match s with
    | .null => v = .null ∧ bs = []
    | .bool => ∃ b, v = .bool b ∧ bs = [if b then 1 else 0]
    | .int => ∃ z, v = .int z ∧ -2 ^ 31 ≤ z ∧ z < 2 ^ 31 ∧ LongBytes z bs
    | .long | .enum => ∃ z, v = .int z ∧ LongBytes z bs
    | .float => v = .raw bs ∧ bs.length = 4
    | .double => v = .raw bs ∧ bs.length = 8
    | .bytes _ | .string => ∃ w, v = .raw w ∧ BytesBytes w bs
    | .fixed size _ => v = .raw bs ∧ bs.length = size
    | .record fields => ∃ vs, v = .record vs ∧ fields.length = vs.length ∧
        Sequence (fun (f : (CString × AvSchema) × AvValue) bs => Encodes depth f.1.2 f.2 bs)
          (fields.zip vs) bs
    | .union branches => ∃ i w t ib wb, v = .union i w ∧ branches[i]? = some t ∧ LongBytes i ib ∧
        Encodes depth t w wb ∧ bs = ib ++ wb
    | .array items => ∃ vs, v = .array vs ∧ Blocks (Encodes depth items) avMaxObjects vs bs
    | .map values => ∃ kvs, v = .map kvs ∧
        Blocks (fun (kv : List Byte × AvValue) bs => ∃ kb wb, BytesBytes kv.1 kb ∧
          Encodes depth values kv.2 wb ∧ bs = kb ++ wb) avMaxObjects kvs bs

variable {bs : List Byte}

/-- The blocks of few items fit a smaller cap. -/
theorem Blocks.imp_of_mem {α : Type} {R S : α → List Byte → Prop} {cap cap' : ℤ} {vs : List α}
    (hvs : Blocks R cap vs bs) (hcap : cap ≤ cap' ∨ vs.length ≤ cap')
    (h : ∀ a ∈ vs, ∀ bs, R a bs → S a bs) : Blocks S cap' vs bs := by
  induction hvs with
  | stop hbs => exact .stop hbs
  | @plain us vs _ _ _ hne hus hcb hub _ ih =>
    rw [length_append, cast_add] at hcap
    have hrest : Blocks S cap' vs _ := ih (by omega) fun a ha => h a (mem_append_right us ha)
    exact .plain hne (by omega) hcb (hub.imp_of_mem fun a ha => h a (mem_append_left vs ha)) hrest
  | @sized us vs _ _ _ _ _ hne hus hcb hsb hub _ ih =>
    rw [length_append, cast_add] at hcap
    have hrest : Blocks S cap' vs _ := ih (by omega) fun a ha => h a (mem_append_right us ha)
    exact .sized hne (by omega) hcb hsb
      (hub.imp_of_mem fun a ha => h a (mem_append_left vs ha)) hrest

theorem Blocks.imp {α : Type} {R S : α → List Byte → Prop} {cap : ℤ} (h : ∀ a bs, R a bs → S a bs)
    {vs : List α} (hvs : Blocks R cap vs bs) : Blocks S cap vs bs :=
  hvs.imp_of_mem (.inl le_rfl) fun a _ => h a

variable {depth : ℕ} {s : AvSchema} {v : AvValue}

/-- A deeper stack has room for the same values. -/
theorem Encodes.succ (h : Encodes depth s v bs) : Encodes (depth + 1) s v bs := by
  induction depth generalizing s v bs with
  | zero => exact h.elim
  | succ depth ih =>
    cases s with
    | record fields =>
      obtain ⟨vs, rfl, hlen, hseq⟩ := h
      exact ⟨vs, rfl, hlen, hseq.imp fun _ _ hf => ih hf⟩
    | union branches =>
      obtain ⟨i, w, t, ib, wb, rfl, ht, hib, hw, rfl⟩ := h
      exact ⟨i, w, t, ib, wb, rfl, ht, hib, ih hw, rfl⟩
    | array items =>
      obtain ⟨vs, rfl, hblocks⟩ := h
      exact ⟨vs, rfl, hblocks.imp fun _ _ hv => ih hv⟩
    | map values =>
      obtain ⟨kvs, rfl, hblocks⟩ := h
      refine ⟨kvs, rfl, hblocks.imp fun kv _ hkv => ?_⟩
      obtain ⟨kb, wb, hkb, hwb, rfl⟩ := hkv
      exact ⟨kb, wb, hkb, ih hwb, rfl⟩
    | null | bool | int | long | float | double | bytes | string | enum | fixed => exact h

/-! ### What the reader takes -/

theorem parses_avLong {z : ℤ} (h : LongBytes z bs) : Parses avLong bs z := by
  obtain ⟨henc, hlen, hz⟩ := h
  have hlt : zigzag z < 2 ^ 64 := by
    unfold zigzag IsInt64 at *
    split <;> omega
  have hvarint : Parses avVarint bs (zigzag z) := by
    intro buf pos hat
    obtain ⟨post, hdrop⟩ := hat.drop
    have hscan : Varint.scan 64 63 (bs ++ post) 0 0 =
        (.done, (0 + 2 ^ 0 * zigzag z) % 2 ^ 64, bs.length) :=
      Varint.scan_of_encodes (by decide) henc post (by decide) (by omega)
    simp only [avVarint, hdrop, hscan, pow_zero, one_mul, zero_add, mod_eq_of_lt hlt]
  have hlong := hvarint.bind_pure unzigzag
  rwa [unzigzag_zigzag] at hlong

theorem parses_avTake (bs : List Byte) : Parses (avTake bs.length) bs bs := by
  intro buf pos hat
  have hle := hat.le
  have htake := takeAt_of_at hat
  rw [avTake, if_neg (by omega), Int.toNat_natCast, htake]

theorem parses_avTake_of_length {n : ℕ} (h : bs.length = n) : Parses (avTake n) bs bs := by
  subst h
  exact parses_avTake bs

theorem parses_avBytes {v : List Byte} (h : BytesBytes v bs) : Parses avBytes bs v := by
  obtain ⟨lb, hlb, rfl⟩ := h
  exact (parses_avLong hlb).bind (parses_avTake v)

theorem LongBytes.length_pos {z : ℤ} (h : LongBytes z bs) : 0 < bs.length :=
  h.1.length_pos

section Blocks

theorem parses_avBlockLoop {α σ : Type} {R : α → List Byte → Prop} {cap : ℤ} {size : σ → ℤ}
    {elem : σ → AvReader σ} {next : σ → α → σ}
    (helem : ∀ s a bs, R a bs → Parses (elem s) bs (next s a)) {vs : List α}
    {bs : List Byte} (h : Blocks R cap vs bs) {s : σ} {fuel : ℕ} (hfuel : bs.length < fuel)
    (hroom : ∀ pre us post, vs = pre ++ (us ++ post) → us.length ≤ cap →
      size (pre.foldl next s) + us.length ≤ cap) :
    Parses (avBlockLoop cap size elem fuel s) bs (vs.foldl next s) := by
  obtain ⟨fuel, rfl⟩ := exists_eq_succ_of_ne_zero (ne_of_gt (zero_lt_of_lt hfuel))
  induction h generalizing s fuel with
  | @stop bs hbs =>
    rw [avBlockLoop, ← append_nil bs]
    refine (parses_avLong hbs).bind ?_
    rw [if_pos rfl]
    exact parses_pure s
  | @plain us vs cb ub rest hne hcap hcb hub hrest ih =>
    have hpos := length_pos_iff.mpr hne
    have hcbpos := hcb.length_pos
    have hok := hroom [] us vs rfl hcap
    rw [foldl_nil] at hok
    simp only [length_append] at hfuel
    obtain ⟨fuel, rfl⟩ := exists_eq_succ_of_ne_zero (show fuel ≠ 0 by omega)
    rw [avBlockLoop, foldl_append]
    refine (parses_avLong hcb).bind ?_
    rw [if_neg (by omega), if_neg (by omega), if_neg (by omega), Int.toNat_natCast]
    refine (parses_many helem hub s).bind (ih ?_ fuel (by omega))
    intro pre us' post hvs hcap'
    have hnext := hroom (us ++ pre) us' post (by rw [hvs, append_assoc]) hcap'
    rwa [foldl_append] at hnext
  | @sized us vs sz cb sb ub rest hne hcap hcb hsb hub hrest ih =>
    have hpos := length_pos_iff.mpr hne
    have hcbpos := hcb.length_pos
    have hok := hroom [] us vs rfl hcap
    rw [foldl_nil] at hok
    simp only [length_append] at hfuel
    obtain ⟨fuel, rfl⟩ := exists_eq_succ_of_ne_zero (show fuel ≠ 0 by omega)
    rw [avBlockLoop, foldl_append]
    refine (parses_avLong hcb).bind ?_
    rw [if_neg (by omega), if_pos (by omega), if_neg (by omega)]
    refine (parses_avLong hsb).bind ?_
    rw [neg_neg, if_neg (by omega), Int.toNat_natCast]
    refine (parses_many helem hub s).bind (ih ?_ fuel (by omega))
    intro pre us' post hvs hcap'
    have hnext := hroom (us ++ pre) us' post (by rw [hvs, append_assoc]) hcap'
    rwa [foldl_append] at hnext

theorem parses_avBlocks {α σ : Type} {R : α → List Byte → Prop} {cap : ℤ} {size : σ → ℤ}
    {elem : σ → AvReader σ} {next : σ → α → σ}
    (helem : ∀ s a bs, R a bs → Parses (elem s) bs (next s a)) {vs : List α}
    {bs : List Byte} (h : Blocks R cap vs bs) {s : σ}
    (hroom : ∀ pre us post, vs = pre ++ (us ++ post) → us.length ≤ cap →
      size (pre.foldl next s) + us.length ≤ cap) :
    Parses (avBlocks cap size elem s) bs (vs.foldl next s) :=
  Parses.withLeft fun _ hleft => parses_avBlockLoop helem h (lt_succ_of_le hleft) hroom

end Blocks

theorem parses_avBranch {branches : List AvSchema} {i : ℕ} {t : AvSchema} {ib : List Byte}
    (h : branches[i]? = some t) (hib : LongBytes i ib) : Parses (avBranch branches) ib t := by
  rw [avBranch, ← append_nil ib]
  refine (parses_avLong hib).bind ?_
  rw [if_neg (by omega), Int.toNat_natCast, h]
  exact parses_pure t

/-- **A skip takes exactly the bytes of the value.** -/
theorem parses_avSkip (h : Encodes depth s v bs) : Parses (avSkip depth s) bs () := by
  induction depth generalizing s v bs with
  | zero => exact h.elim
  | succ depth ih =>
    have htake : ∀ {n : ℕ}, bs.length = n → Parses (avTake n >>= fun _ => pure ()) bs () :=
      fun hn => (parses_avTake_of_length hn).bind_pure fun _ => ()
    cases s with
    | null =>
      obtain ⟨-, rfl⟩ := h
      exact parses_pure ()
    | bool =>
      obtain ⟨b, -, rfl⟩ := h
      exact (parses_avTake_of_length rfl).bind_pure fun _ => ()
    | int =>
      obtain ⟨z, -, -, -, hz⟩ := h
      exact (parses_avLong hz).bind_pure fun _ => ()
    | long | enum =>
      obtain ⟨z, -, hz⟩ := h
      exact (parses_avLong hz).bind_pure fun _ => ()
    | float | double | fixed => exact htake h.2
    | bytes | string =>
      obtain ⟨w, -, hw⟩ := h
      exact (parses_avBytes hw).bind_pure fun _ => ()
    | record fields =>
      obtain ⟨vs, -, hlen, hseq⟩ := h
      have hfields := hseq.map Prod.fst
      rw [map_fst_zip (le_of_eq hlen)] at hfields
      refine parses_each (fun f bs hf => ?_) hfields
      obtain ⟨fv, rfl, henc⟩ := hf
      exact ih henc
    | union branches =>
      obtain ⟨i, w, t, ib, wb, -, ht, hib, hw, rfl⟩ := h
      exact (parses_avBranch ht hib).bind (ih hw)
    | array items =>
      obtain ⟨vs, -, hblocks⟩ := h
      exact parses_avBlocks (fun _ _ _ hR => ih hR) hblocks fun _ _ _ _ hcap => by simpa using hcap
    | map values =>
      obtain ⟨kvs, -, hblocks⟩ := h
      have hentry : ∀ (s : Unit) (kv : List Byte × AvValue) (bs : List Byte),
          (∃ kb wb, BytesBytes kv.1 kb ∧ Encodes depth values kv.2 wb ∧ bs = kb ++ wb) → Parses (do
              let _ ← avBytes
              avSkip depth values) bs ((fun _ _ => ()) s kv) := by
        intro s kv bs hkv
        obtain ⟨kb, wb, hkb, hwb, rfl⟩ := hkv
        exact (parses_avBytes hkb).bind (ih hwb)
      exact parses_avBlocks hentry hblocks fun _ _ _ _ hcap => by simpa using hcap

/-- The schema and the value inside a union, and whether the value is a union's null. -/
def unwrap (s : AvSchema) (v : AvValue) : AvSchema × AvValue × Bool :=
  match s, v with
  | .union branches, .union i w =>
    (branches.getD i .null, w, (branches.getD i .null).isNull)
  | _, _ => (s, v, false)

theorem Encodes.null_eq_nil {w : AvValue}
    (hnull : (unwrap s v).2.2 = true) (h : Encodes depth (unwrap s v).1 w bs) : bs = [] := by
  unfold unwrap at hnull h
  split at hnull
  · next branches i w' =>
    dsimp only at hnull h
    cases hget : branches.getD i .null with
    | null =>
      rw [hget] at h
      cases depth with
      | zero => exact h.elim
      | succ depth => exact h.2
    | _ =>
      rw [hget] at hnull
      cases hnull
  · cases hnull

/-- A value is read behind the branch of its union. -/
theorem parses_avUnwrapUnion (h : Encodes depth s v bs) : ∃ ib wb, bs = ib ++ wb ∧
      Parses (avUnwrapUnion s) ib ((unwrap s v).1, (unwrap s v).2.2) ∧
        Encodes depth (unwrap s v).1 (unwrap s v).2.1 wb := by
  cases depth with
  | zero => exact h.elim
  | succ depth =>
    cases s with
    | union branches =>
      obtain ⟨i, w, t, ib, wb, rfl, ht, hib, hw, rfl⟩ := h
      have hget : branches.getD i .null = t := by rw [getD_eq_getElem?_getD, ht, Option.getD_some]
      rw [unwrap, hget]
      exact ⟨ib, wb, rfl, (parses_avBranch ht hib).bind_pure fun t => (t, t.isNull), hw.succ⟩
    | null | bool | int | long | float | double | bytes | string | enum | fixed | record | array
      | map =>
      exact ⟨[], bs, rfl, parses_pure _, h⟩

/-! ### Any buffer -/

theorem not_bad_malformed : ¬ AvError.malformed.Bad := by simp [AvError.Bad]

theorem avLong_progress {buf : List Byte} {pos p : ℕ} {z : ℤ} (h : avLong buf pos = .ok (z, p)) :
    pos < p := by
  obtain ⟨u, q, hvarint, hpure⟩ := bind_ok h
  cases hpure
  unfold avVarint at hvarint
  split at hvarint
  · next v k hscan =>
    cases hvarint
    have hne : buf.drop pos ≠ [] := by
      intro hnil
      simp [hnil, Varint.scan] at hscan
    have hk : 0 < (Varint.scan 64 63 (buf.drop pos) 0 0).2.2 := Varint.scan_pos hne
    rw [hscan] at hk
    exact Nat.lt_add_of_pos_right hk
  · cases hvarint

theorem safe_avVarint : Safe AvError.Bad avVarint := by
  intro buf pos hpos
  have hle : (Varint.scan 64 63 (buf.drop pos) 0 0).2.2 ≤ (buf.drop pos).length :=
    Varint.scan_le_length
  rw [length_drop] at hle
  unfold SafeAt avVarint
  split
  · next v k hscan =>
    rw [hscan] at hle
    dsimp only at hle
    refine ⟨fun e h => ?_, fun a p h => ?_⟩
    · cases h
    · cases h
      omega
  · refine ⟨fun e h => ?_, fun a p h => ?_⟩
    · cases h
      exact not_bad_malformed
    · cases h

theorem safe_avLong : Safe AvError.Bad avLong := safe_avVarint.bind fun u => safe_pure (unzigzag u)

theorem safe_avTake (n : ℤ) : Safe AvError.Bad (avTake n) := by
  intro buf pos hpos
  unfold SafeAt avTake
  split
  · refine ⟨fun e h => ?_, fun a p h => ?_⟩
    · cases h
      exact not_bad_malformed
    · cases h
  · next hn =>
    obtain ⟨bs, hbs, -, -⟩ := takeAt_ok (show pos + n.toNat ≤ buf.length by omega)
    rw [hbs]
    refine ⟨fun e h => ?_, fun a p h => ?_⟩
    · cases h
    · cases h
      omega

theorem safe_avBytes : Safe AvError.Bad avBytes := safe_avLong.bind safe_avTake

/-- The blocks end: every block takes at least one byte. -/
theorem safe_avBlockLoop {σ : Type} (cap : ℤ) (size : σ → ℤ) {elem : σ → AvReader σ}
    (h : ∀ s, Safe AvError.Bad (elem s)) {fuel : ℕ} {s : σ} {buf : List Byte} {pos : ℕ}
    (hpos : pos ≤ buf.length) (hfuel : buf.length - pos < fuel) :
    SafeAt AvError.Bad (avBlockLoop cap size elem fuel s) buf pos := by
  induction fuel generalizing s pos with
  | zero => omega
  | succ fuel ih =>
    rw [avBlockLoop]
    refine (safe_avLong buf pos hpos).bind fun cnt p hcnt => ?_
    have hprog := avLong_progress hcnt
    have hp := ((safe_avLong buf pos hpos).2 cnt p hcnt).2
    -- the items of a block, and the blocks behind it
    have hbody : ∀ n q, p ≤ q → q ≤ buf.length →
        SafeAt AvError.Bad (many elem n s >>= avBlockLoop cap size elem fuel) buf q := by
      intro n q hle hq
      refine (Safe.many h n s buf q hq).bind fun s' q' hrun => ?_
      have hq' := (Safe.many h n s buf q hq).2 s' q' hrun
      exact ih hq'.2 (by omega)
    split
    · exact safe_pure s buf p hp
    · split
      · split
        · exact safe_fail not_bad_malformed buf p hp
        · refine (safe_avLong buf p hp).bind fun size' q hsize => ?_
          have hq := (safe_avLong buf p hp).2 size' q hsize
          split
          · exact safe_fail not_bad_malformed buf q hq.2
          · exact hbody _ q hq.1 hq.2
      · split
        · exact safe_fail not_bad_malformed buf p hp
        · exact hbody _ p le_rfl hp

theorem safe_avBlocks {σ : Type} (cap : ℤ) (size : σ → ℤ) {elem : σ → AvReader σ}
    (h : ∀ s, Safe AvError.Bad (elem s)) (s : σ) : Safe AvError.Bad (avBlocks cap size elem s) :=
  fun _ _ hpos => safe_avBlockLoop cap size h hpos (lt_succ_self _)

theorem safe_avBranch (branches : List AvSchema) : Safe AvError.Bad (avBranch branches) := by
  refine safe_avLong.bind fun idx => ?_
  split
  · exact safe_fail not_bad_malformed
  · split
    · exact safe_fail not_bad_malformed
    · exact safe_pure _

/-- **A skip ends on any buffer**, and never reads past the end. -/
theorem safe_avSkip (depth : ℕ) (s : AvSchema) : Safe AvError.Bad (avSkip depth s) := by
  induction depth generalizing s with
  | zero => exact safe_fail (by simp [AvError.Bad])
  | succ depth ih =>
    cases s with
    | null => exact safe_pure ()
    | bool | float | double | fixed => exact (safe_avTake _).bind fun _ => safe_pure ()
    | int | long | enum => exact safe_avLong.bind fun _ => safe_pure ()
    | bytes | string => exact safe_avBytes.bind fun _ => safe_pure ()
    | record fields => exact Safe.each (fun f => ih f.2) fields
    | array items => exact safe_avBlocks _ _ (fun _ => ih items) ()
    | map values => exact safe_avBlocks _ _ (fun _ => safe_avBytes.bind fun _ => ih values) ()
    | union branches => exact (safe_avBranch branches).bind ih

theorem safe_avUnwrapUnion (s : AvSchema) : Safe AvError.Bad (avUnwrapUnion s) := by
  cases s with
  | union branches =>
    exact (safe_avBranch branches).bind fun t => safe_pure _
  | _ => exact safe_pure _

end PgColumnar.Avro
