import PgColumnar.Iceberg.Deletes
import PgColumnar.Iceberg.Roaring
import PgColumnar.Lib.Numeric

/-!
# Deletion vectors in Puffin files

A Puffin file holds blobs and a footer that names them.  The reader checks the framing, finds the
blob that the manifest points at, and decodes its bitmap.  PostgreSQL's JSON parser and zlib's
CRC-32 are parameters.

## Main definitions

* `puffinReadDeletionVector` — the footer, the blob, its checksum and its vector.
* `Frames` — a file that holds a set.

## Main results

* `puffinReadDeletionVector_exact` — a set that was framed is returned, and any buffer is safe.
-/

namespace PgColumnar.Iceberg

open Bytes Cursor List

inductive Json
  | object (fields : List (CString × Json))
  | array (elems : List Json)
  | string (s : CString)
  | numeric (q : ℚ)
  | other

/-- `pf_field` -/
def pfField (c : Json) (key : String) : Option Json :=
  match c with
  | .object fields => fields.lookup (ascii key)
  | _ => none

/-- `numeric_int8` -/
def numericInt8 (q : ℚ) : Except PuffinError ℤ :=
  match Numeric.toInt 64 q with
  | some r => .ok r
  | none => .error .numericRange

/-- `pf_num_int64` -/
def pfNumInt64 (v : Option Json) : Except PuffinError (Option ℤ) :=
  match v with
  | some (.numeric q) => do
    let r ← numericInt8 q
    return some r
  | _ => .ok none

/-- `pf_str_eq` -/
def pfStrEq (v : Option Json) (want : CString) : Bool :=
  match v with
  | some (.string s) => s == want
  | _ => false

/-- Whether the footer's entry has the manifest's offset and length. -/
def pfMatches (bl : Json) (offset size : ℤ) : Except PuffinError Bool := do
  match ← pfNumInt64 (pfField bl "offset") with
  | none => return false
  | some off =>
    match ← pfNumInt64 (pfField bl "length") with
    | none => return false
    | some blen => return off == offset && blen == size

/-- What the entry of a deletion vector must say. -/
def pfCheckBlob (bl : Json) (offset : ℤ) (referenced : CString) : Except PuffinError Unit :=
  if !pfStrEq (pfField bl "type") (ascii "deletion-vector-v1") then .error
    (.notDeletionVector offset)
  else if (pfField bl "compression-codec").isSome then .error .compressionCodec
  else
    match pfField bl "properties" with
    | none => .error .otherDataFile
    | some props =>
      if pfStrEq (pfField props "referenced-data-file") referenced then .ok ()
        else .error .otherDataFile

/-- The loop over the footer's blobs. -/
def pfFindBlob (offset size : ℤ) (referenced : CString) : List Json → Except PuffinError Unit
  | [] => .error (.noSuchBlob offset size)
  | .object fields :: blobs => do
    if ← pfMatches (.object fields) offset size then pfCheckBlob (.object fields) offset referenced
    else pfFindBlob offset size referenced blobs
  | _ :: blobs => pfFindBlob offset size referenced blobs

def puffinMagic : List Byte := ascii "PFA1"

def dvMagic : List Byte := [0xD1, 0xD3, 0x39, 0x64]

/-- `pf_be32` -/
def pfBe32 (bs : List Byte) : ℕ := leNat bs.reverse

def toInt32 (v : ℕ) : ℤ := if v < 2 ^ 31 then v else v - 2 ^ 32

/-- The container framing: where the payload starts, and the payload. -/
def puffinFooter (buf : List Byte) : Except PuffinError (ℕ × List Byte) :=
  if buf.length < 20 then .error .notPuffin
  else do
    let head ← pfFetch buf 0 4
    let tail ← pfFetch buf (buf.length - 4) 4
    if head ≠ puffinMagic ∨ tail ≠ puffinMagic then .error .notPuffin
    else
      let flags ← pfFetch buf (buf.length - 8) 4
      if leNat flags % 2 = 1 then .error .compressedFooter
      else if leNat flags ≠ 0 then .error (.reservedFlags (leNat flags))
      else
        let size ← pfFetch buf (buf.length - 12) 4
        let paysize := toInt32 (leNat size)
        let paystart := (buf.length : ℤ) - 12 - paysize
        if paysize < 2 ∨ paystart < 8 then .error .malformedFooter
        else
          let footer ← pfFetch buf (paystart.toNat - 4) 4
          if footer ≠ puffinMagic then .error .malformedFooter
          else
            let payload ← pfFetch buf paystart.toNat paysize.toNat
            return (paystart.toNat, payload)

section Reader

variable (jsonbIn : CString → Option Json) (crc32 : List Byte → ℕ)

/-- The blob itself; what is read behind the bounds test are bytes of the blob. -/
def puffinBlob (buf : List Byte) (paystart : ℕ) (offset size : ℤ) : Except PuffinError (List ℕ) :=
  if offset < 4 ∨ size < 12 ∨ (paystart : ℤ) - 4 - 4 < size ∨
    (paystart : ℤ) - 4 - size < offset then
    .error .outsideBlobRegion
  else do
    let blob ← pfFetch buf offset.toNat size.toNat
    let prefixed ← pfFetch blob 0 4
    let veclen := pfBe32 prefixed
    if (veclen : ℤ) ≠ size - 8 then .error .lengthPrefix
    else
      let magic ← pfFetch blob 4 4
      if magic ≠ dvMagic then .error .badMagic
      else
        let crcWant ← pfFetch blob (4 + veclen) 4
        let checked ← pfFetch blob 4 veclen
        if pfBe32 crcWant ≠ crc32 checked % 2 ^ 32 then .error .crcMismatch
        else pfVector blob (4 + veclen) 8

/-- `PgColumnarPuffinReadDeletionVector` -/
def puffinReadDeletionVector (buf : List Byte) (offset size : ℤ) (referenced : CString) :
    Except PuffinError (List ℕ) := do
  let (paystart, payload) ← puffinFooter buf
  match jsonbIn (textToCstring payload) with
  | none => .error .payloadSyntax
  | some root =>
    match pfField root "blobs" with
    | some (.array blobs) => do
      pfFindBlob offset size referenced blobs
      puffinBlob crc32 buf paystart offset size
    | _ => .error .noBlobs

/-! ### Files that frame a vector -/

/-- The blob of a deletion vector. -/
def dvBlob (vector : List Byte) : List Byte :=
  (leBytes 4 (4 + vector.length)).reverse ++
    ((dvMagic ++ vector) ++ (leBytes 4 (crc32 (dvMagic ++ vector) % 2 ^ 32)).reverse)

/-- An entry of the footer with the offset and length. -/
def EntryAt (e : Json) (offset size : ℤ) : Prop :=
  (-2 ^ 63 ≤ offset ∧ offset < 2 ^ 63) ∧ (-2 ^ 63 ≤ size ∧ size < 2 ^ 63) ∧
    ∃ fields, e = .object fields ∧
    pfField e "offset" = some (.numeric offset) ∧ pfField e "length" = some (.numeric size)

/-- The footer names the blob: the first entry with its offset and length describes a deletion
vector of the data file. -/
def FooterNames (root : Json) (offset size : ℤ) (referenced : CString) : Prop :=
  ∃ before e after props, pfField root "blobs" = some (.array (before ++ e :: after)) ∧
    (∀ x ∈ before, ∃ off blen, EntryAt x off blen ∧ ¬ (off = offset ∧ blen = size)) ∧
    EntryAt e offset size ∧ pfField e "type" = some (.string (ascii "deletion-vector-v1")) ∧
    pfField e "compression-codec" = none ∧ pfField e "properties" = some props ∧
    pfField props "referenced-data-file" = some (.string referenced)

def puffinFile (before blob after payload : List Byte) : List Byte :=
  puffinMagic ++ (before ++ (blob ++ (after ++ (puffinMagic ++ (payload ++
    (leBytes 4 payload.length ++ (leBytes 4 0 ++ puffinMagic)))))))

/-- The file frames the vector of a data file, at the manifest's offset and size. -/
def Frames (buf : List Byte) (offset size : ℤ) (referenced : CString) (vector : List Byte) : Prop :=
  ∃ before after payload root, buf = puffinFile before (dvBlob crc32 vector) after payload ∧
    4 + vector.length < 2 ^ 32 ∧ 2 ≤ payload.length ∧ payload.length < 2 ^ 31 ∧
    offset = puffinMagic.length + before.length ∧ size = (dvBlob crc32 vector).length ∧
    jsonbIn (textToCstring payload) = some root ∧ FooterNames root offset size referenced

end Reader

/-! ### The footer -/

section Footer

variable {mem : List Byte} {p n : ℕ}

theorem pfFetch_of_at {bs : List Byte} (h : At mem p bs) (hlen : bs.length = n) :
    pfFetch mem p n = .ok bs := by
  subst hlen
  simp [pfFetch, takeAt_of_at h]

theorem pfFetch_ok (mem : List Byte) {p n : ℕ} (h : p + n ≤ mem.length) :
    ∃ bs, pfFetch mem p n = .ok bs ∧ At mem p bs ∧ bs.length = n := by
  obtain ⟨bs, hbs, hat, hlen⟩ := takeAt_ok h
  exact ⟨bs, by simp [pfFetch, hbs], hat, hlen⟩

theorem puffinFooter_safe (buf : List Byte) : puffinFooter buf ≠ .error .fault ∧
      ∀ paystart payload, puffinFooter buf = .ok (paystart, payload) → paystart ≤ buf.length := by
  unfold puffinFooter
  by_cases h20 : buf.length < 20
  · simp [h20]
  · obtain ⟨head, hhead, -⟩ := pfFetch_ok buf (show 0 + 4 ≤ buf.length by omega)
    obtain ⟨tail, htail, -⟩ := pfFetch_ok buf (show buf.length - 4 + 4 ≤ buf.length by omega)
    obtain ⟨flags, hflags, -⟩ := pfFetch_ok buf (show buf.length - 8 + 4 ≤ buf.length by omega)
    obtain ⟨size, hsize, -⟩ := pfFetch_ok buf (show buf.length - 12 + 4 ≤ buf.length by omega)
    simp only [h20, if_false, hhead, htail, hflags, hsize, bind, Except.bind]
    split
    · simp
    · split
      · simp
      · split
        · simp
        · generalize toInt32 (leNat size) = paysize
          split
          · simp
          · next hpay =>
            obtain ⟨footer, hfooter, -⟩ := pfFetch_ok buf
              (show ((buf.length : ℤ) - 12 - paysize).toNat - 4 + 4 ≤ buf.length by omega)
            obtain ⟨payload, hpayload, -⟩ := pfFetch_ok buf
              (show ((buf.length : ℤ) - 12 - paysize).toNat + paysize.toNat ≤ buf.length by omega)
            simp only [hfooter, hpayload]
            split
            · simp
            · simp only [pure, Except.pure, ne_eq, reduceCtorEq, not_false_eq_true, Except.ok.injEq,
                Prod.mk.injEq, true_and]
              intro paystart payload' h
              omega

/-- Where the parts of a file stand. -/
theorem puffinFooter_of_file {before blob after payload : List Byte} (hlo : 2 ≤ payload.length)
    (hhi : payload.length < 2 ^ 31) :
    puffinFooter (puffinFile before blob after payload) =
      .ok (4 + before.length + blob.length + after.length + 4, payload) := by
  have hmagic : puffinMagic.length = 4 := rfl
  obtain ⟨buf, hbuf⟩ : ∃ buf, buf = puffinFile before blob after payload := ⟨_, rfl⟩
  have hparts : At buf 0 (puffinFile before blob after payload) := by
    have hall := at_zero buf []
    rw [append_nil] at hall
    rwa [← hbuf]
  have hlen : buf.length = 4 + before.length + blob.length + after.length + 4 + payload.length +
    12 := by
    rw [hbuf]
    simp only [puffinFile, length_append, length_leBytes, hmagic]
    omega
  simp only [puffinFile, at_append, hmagic, length_leBytes, Nat.zero_add] at hparts
  obtain ⟨hhead, -, -, -, hfooter, hpay, hsize, hflags, htail⟩ := hparts
  rw [← hbuf, puffinFooter, if_neg (by omega)]
  have hpos : (4 + before.length + blob.length + after.length + 4 + payload.length) =
    buf.length - 12 := by
    omega
  rw [hpos] at hsize hflags htail
  have hint : toInt32 payload.length = payload.length := by
    rw [toInt32, if_pos hhi]
  have h0 : leNat (leBytes 4 0) = 0 := by decide
  have hpayload : leNat (leBytes 4 payload.length) = payload.length :=
    leNat_leBytes_of_lt (by omega)
  have hflags' : buf.length - 12 + 4 = buf.length - 8 := by omega
  rw [hflags'] at hflags htail
  rw [show buf.length - 8 + 4 = buf.length - 4 by omega] at htail
  have hstart : ((buf.length : ℤ) - 12 - (payload.length : ℤ)).toNat =
      4 + before.length + blob.length + after.length + 4 := by omega
  have hstart' : 4 + before.length + blob.length + after.length + 4 - 4 =
      4 + before.length + blob.length + after.length := by omega
  simp only [pfFetch_of_at hhead hmagic, pfFetch_of_at htail hmagic,
    pfFetch_of_at hflags (length_leBytes 4 0), pfFetch_of_at hsize (length_leBytes 4 _), bind,
    Except.bind, ne_eq, not_true_eq_false, or_self, if_false, h0, hpayload, hint]
  rw [if_neg (by decide), if_neg (by omega), hstart, hstart', pfFetch_of_at hfooter hmagic]
  simp only [not_true_eq_false, if_false, Int.toNat_natCast, pfFetch_of_at hpay rfl, pure,
    Except.pure]

end Footer

/-! ### The footer's blobs -/

section Blobs

variable {offset size : ℤ} {referenced : CString}

theorem numericInt8_ne_fault (q : ℚ) : numericInt8 q ≠ .error .fault := by
  unfold numericInt8
  split <;> simp

theorem pfNumInt64_ne_fault (v : Option Json) : pfNumInt64 v ≠ .error .fault := by
  unfold pfNumInt64
  split
  · exact bind_ne_fault (numericInt8_ne_fault _) fun _ _ => by simp [pure, Except.pure]
  · simp

theorem pfMatches_ne_fault (bl : Json) (offset size : ℤ) :
    pfMatches bl offset size ≠ .error .fault := by
  refine bind_ne_fault (pfNumInt64_ne_fault _) fun off _ => ?_
  split
  · simp [pure, Except.pure]
  · refine bind_ne_fault (pfNumInt64_ne_fault _) fun blen _ => ?_
    split <;> simp [pure, Except.pure]

theorem pfCheckBlob_ne_fault (bl : Json) : pfCheckBlob bl offset referenced ≠ .error .fault := by
  unfold pfCheckBlob
  split
  · simp
  · split
    · simp
    · split
      · simp
      · split <;> simp

theorem pfFindBlob_ne_fault (offset size : ℤ) (referenced : CString) (blobs : List Json) :
    pfFindBlob offset size referenced blobs ≠ .error .fault := by
  induction blobs with
  | nil => simp [pfFindBlob]
  | cons bl blobs ih =>
    cases bl with
    | object fields =>
      refine bind_ne_fault (pfMatches_ne_fault _ _ _) fun found _ => ?_
      split
      · exact pfCheckBlob_ne_fault _
      · exact ih
    | array | string | numeric | other => exact ih

theorem numericInt8_intCast {z : ℤ} (h : -2 ^ 63 ≤ z ∧ z < 2 ^ 63) : numericInt8 z = .ok z := by
  rw [numericInt8, Numeric.toInt_intCast h]

theorem EntryAt.matches {e : Json} {off blen : ℤ} (h : EntryAt e off blen) (offset size : ℤ) :
    pfMatches e offset size = .ok (off == offset && blen == size) := by
  obtain ⟨hoff, hblen, fields, -, hfoff, hfblen⟩ := h
  simp [pfMatches, hfoff, hfblen, pfNumInt64, numericInt8_intCast hoff,
    numericInt8_intCast hblen, bind,
    Except.bind, pure, Except.pure]

theorem pfFindBlob_of_names {before : List Json} {e : Json} {after : List Json} {props : Json}
    (hbefore : ∀ x ∈ before, ∃ off blen, EntryAt x off blen ∧ ¬ (off = offset ∧ blen = size))
    (he : EntryAt e offset size)
    (htype : pfField e "type" = some (.string (ascii "deletion-vector-v1")))
    (hcodec : pfField e "compression-codec" = none) (hprops : pfField e "properties" = some props)
    (hfile : pfField props "referenced-data-file" = some (.string referenced)) :
    pfFindBlob offset size referenced (before ++ e :: after) = .ok () := by
  induction before with
  | nil =>
    have hmatch := he.matches offset size
    obtain ⟨fields, rfl, -⟩ := he.2.2
    simp [pfFindBlob, hmatch, pfCheckBlob, htype, hcodec, hprops, hfile, pfStrEq, bind, Except.bind]
  | cons x before ih =>
    obtain ⟨off, blen, hx, hne⟩ := hbefore x mem_cons_self
    have hmatch := hx.matches offset size
    obtain ⟨fields, rfl, -⟩ := hx.2.2
    have hfalse : (off == offset && blen == size) = false := by simpa using hne
    have hrest := ih fun y hy => hbefore y (mem_cons_of_mem _ hy)
    simp [pfFindBlob, hmatch, hfalse, hrest, bind, Except.bind]

end Blobs

/-! ### The blob -/

section Blob

variable {crc32 : List Byte → ℕ} {buf : List Byte} {paystart : ℕ} {offset size : ℤ}

theorem pfBe32_reverse {v : ℕ} (h : v < 2 ^ 32) : pfBe32 (leBytes 4 v).reverse = v := by
  rw [pfBe32, reverse_reverse, leNat_leBytes_of_lt (by omega)]

/-- What the reader has read when it returns: the blob, and all of its vector. -/
theorem puffinBlob_safe (crc32 : List Byte → ℕ) (offset size : ℤ) (hle : paystart ≤ buf.length) :
    puffinBlob crc32 buf paystart offset size ≠ .error .fault ∧
      ∀ ps, puffinBlob crc32 buf paystart offset size = .ok ps → ∃ blob xs pre post,
        slice buf offset.toNat size.toNat = some blob ∧ blob = pre ++ (vectorBytes xs ++ post) ∧
          pre.length = 8 ∧ post.length = 4 ∧ VectorFits xs ∧ ps = vectorPositions xs := by
  unfold puffinBlob
  split
  · simp
  · next hbounds =>
    obtain ⟨blob, hblob, hat, hlen⟩ := pfFetch_ok buf
      (show offset.toNat + size.toNat ≤ buf.length by omega)
    obtain ⟨pfx, hpfx, -⟩ := pfFetch_ok blob (show 0 + 4 ≤ blob.length by omega)
    simp only [hblob, hpfx, bind, Except.bind]
    by_cases hvec : ((pfBe32 pfx : ℕ) : ℤ) ≠ size - 8
    · simp [hvec]
    · rw [not_not] at hvec
      generalize hv : pfBe32 pfx = veclen at hvec
      obtain ⟨magic, hmagic, -⟩ := pfFetch_ok blob (show 4 + 4 ≤ blob.length by omega)
      obtain ⟨crcWant, hcrc, -⟩ := pfFetch_ok blob (show 4 + veclen + 4 ≤ blob.length by omega)
      obtain ⟨checked, hchecked, -⟩ := pfFetch_ok blob (show 4 + veclen ≤ blob.length by omega)
      have hfin : 4 + veclen ≤ blob.length := by omega
      have hpos : 8 ≤ 4 + veclen := by omega
      simp only [hvec, ne_eq, not_true_eq_false, if_false, hmagic, hcrc, hchecked]
      split
      · simp
      · split
        · simp
        · refine ⟨pfVector_ne_fault hfin hpos, fun ps hps => ?_⟩
          obtain ⟨xs, hfits, ⟨hat', hend, -⟩, hvals, -⟩ := (pfVector_ok_iff hfin hpos ps).mp hps
          obtain ⟨pre, post, hsplit, hpre⟩ := hat'
          refine ⟨blob, xs, pre, post, ?_, hsplit, hpre, ?_, hfits, hvals⟩
          · rw [← hlen]
            exact hat.slice
          · have hcount := congrArg List.length hsplit
            simp only [length_append] at hcount
            omega

theorem length_dvBlob (crc32 : List Byte → ℕ) (vector : List Byte) :
    (dvBlob crc32 vector).length = vector.length + 12 := by
  have hmagic : dvMagic.length = 4 := rfl
  simp only [dvBlob, length_append, length_reverse, length_leBytes, hmagic]
  omega

/-- A blob at its place in the file, with its vector's positions. -/
theorem puffinBlob_of_at {vector : List Byte} {xs : List RoaringBucket} (hfits : VectorFits xs)
    (hvec : vector = vectorBytes xs) (hcap : (vectorPositions xs).length ≤ puffinMaxPositions)
    (hlen : 4 + vector.length < 2 ^ 32) {at_ : ℕ} (hat : At buf at_ (dvBlob crc32 vector))
    (h4 : 4 ≤ at_) (hend : at_ + (dvBlob crc32 vector).length + 4 ≤ paystart) :
    puffinBlob crc32 buf paystart at_ (dvBlob crc32 vector).length = .ok (vectorPositions xs) := by
  have hmagic : dvMagic.length = 4 := rfl
  have hsize := length_dvBlob crc32 vector
  obtain ⟨blob, hblob⟩ : ∃ blob, blob = dvBlob crc32 vector := ⟨_, rfl⟩
  have hparts : At blob 0 (dvBlob crc32 vector) := by
    have hall := at_zero blob []
    rw [append_nil] at hall
    rwa [← hblob]
  simp only [dvBlob, at_append, length_reverse, length_append, length_leBytes, hmagic,
    Nat.zero_add] at hparts
  obtain ⟨hpfx, ⟨hdv, hbody⟩, hcrc⟩ := hparts
  have hchecked : At blob 4 (dvMagic ++ vector) := at_append.mpr ⟨hdv, hbody⟩
  have hpfxlen : (leBytes 4 (4 + vector.length)).reverse.length = 4 := by simp
  have hcrclen : (leBytes 4 (crc32 (dvMagic ++ vector) % 2 ^ 32)).reverse.length = 4 := by simp
  have hcheckedlen : (dvMagic ++ vector).length = 4 + vector.length := by simp [hmagic]
  have hveclen : ((4 + vector.length : ℕ) : ℤ) = ((dvBlob crc32 vector).length : ℕ) - 8 := by
    rw [hsize]
    omega
  rw [← hblob] at hat hend hveclen hsize ⊢
  rw [puffinBlob, if_neg (by omega)]
  simp only [Int.toNat_natCast, pfFetch_of_at hat rfl, pfFetch_of_at hpfx hpfxlen,
    pfBe32_reverse hlen,
    pfFetch_of_at hdv hmagic, bind, Except.bind]
  rw [if_neg (not_not.mpr hveclen), if_neg (not_not.mpr rfl), pfFetch_of_at hcrc hcrclen]
  simp only [pfFetch_of_at hchecked hcheckedlen, pfBe32_reverse (Nat.mod_lt _ (by norm_num)), ne_eq,
    not_true_eq_false, if_false]
  refine (pfVector_ok_iff (by omega) (by omega) _).mpr ⟨xs, hfits, ⟨?_, ?_, le_rfl⟩, rfl, hcap⟩
  · rw [← hvec]
    exact hbody
  · rw [← hvec]
    omega

end Blob

section Exact

variable (jsonbIn : CString → Option Json) (crc32 : List Byte → ℕ)

/-- **The set that was serialized is returned in ascending order.** -/
theorem puffinReadDeletionVector_of_frames {positions : Finset ℕ}
    (hcard : positions.card ≤ puffinMaxPositions) {vector : List Byte}
    (hser : RoaringOf positions vector) {buf : List Byte} {offset size : ℤ} {referenced : CString}
    (hframes : Frames jsonbIn crc32 buf offset size referenced vector) :
    puffinReadDeletionVector jsonbIn crc32 buf offset size referenced =
      .ok (positions.sort (· ≤ ·)) := by
  obtain ⟨xs, hfits, hvec, hsort⟩ := hser.sort_eq
  obtain ⟨before, after, payload, root, rfl, hlen, hlo, hhi, rfl, rfl, hjson, hnames⟩ := hframes
  obtain ⟨bl, e, al, props, hblobs, hbefore, he, htype, hcodec, hprops, hfile⟩ := hnames
  have hcap : (vectorPositions xs).length ≤ puffinMaxPositions := by
    rw [hsort, Finset.length_sort]
    exact hcard
  have hat : At (puffinFile before (dvBlob crc32 vector) after payload)
      (puffinMagic.length + before.length) (dvBlob crc32 vector) :=
    ⟨puffinMagic ++ before, after ++ (puffinMagic ++ (payload ++ (leBytes 4 payload.length ++
      (leBytes 4 0 ++ puffinMagic)))), by rw [puffinFile, append_assoc], by simp⟩
  have hmagic : puffinMagic.length = 4 := rfl
  have hblob : puffinBlob crc32 (puffinFile before (dvBlob crc32 vector) after payload)
      (4 + before.length + (dvBlob crc32 vector).length + after.length + 4)
      (puffinMagic.length + before.length : ℕ) (dvBlob crc32 vector).length = .ok
        (vectorPositions xs) :=
    puffinBlob_of_at hfits hvec hcap hlen hat (by omega) (by omega)
  have hfind : pfFindBlob _ _ referenced (bl ++ e :: al) = .ok () :=
    pfFindBlob_of_names hbefore he htype hcodec hprops hfile
  rw [puffinReadDeletionVector, puffinFooter_of_file hlo hhi]
  simp only [bind, Except.bind, hjson, hblobs, hfind]
  rw [← hsort]
  exact_mod_cast hblob

/-- **On any buffer the reader raises, or has decoded the blob's vector to its last byte** into
containers whose positions lie in their ranges; it never reads outside the blob. -/
theorem puffinReadDeletionVector_safe (buf : List Byte) (offset size : ℤ) (referenced : CString) :
    puffinReadDeletionVector jsonbIn crc32 buf offset size referenced ≠ .error .fault ∧
      ∀ ps, puffinReadDeletionVector jsonbIn crc32 buf offset size referenced = .ok ps →
        ∃ blob xs pre post, slice buf offset.toNat size.toNat = some blob ∧
          blob = pre ++ (vectorBytes xs ++ post) ∧ pre.length = 8 ∧ post.length = 4 ∧
          VectorFits xs ∧ ps = vectorPositions xs := by
  obtain ⟨hfooter, hle⟩ := puffinFooter_safe buf
  unfold puffinReadDeletionVector
  cases hf : puffinFooter buf with
  | error e =>
    rw [hf] at hfooter
    simpa [bind, Except.bind] using hfooter
  | ok f =>
    obtain ⟨hblob, hok⟩ := puffinBlob_safe crc32 offset size (hle f.1 f.2 hf)
    simp only [bind, Except.bind]
    split
    · simp
    · split
      · next blobs _ =>
        have hfind := pfFindBlob_ne_fault offset size referenced blobs
        cases hfb : pfFindBlob offset size referenced blobs with
        | error e =>
          rw [hfb] at hfind
          simpa using hfind
        | ok u => exact ⟨hblob, hok⟩
      · simp

/-- **A deletion vector that was framed is returned as the set in ascending order**, and on any
buffer the reader raises or returns, having read only the blob and its vector to the last byte,
with every container's positions in its range of 65536 values. -/
theorem puffinReadDeletionVector_exact :
    (∀ (positions : Finset ℕ) (vector buf : List Byte) (offset size : ℤ) (referenced : CString),
      positions.card ≤ puffinMaxPositions → RoaringOf positions vector →
        Frames jsonbIn crc32 buf offset size referenced vector →
          puffinReadDeletionVector jsonbIn crc32 buf offset size referenced =
            .ok (positions.sort (· ≤ ·))) ∧
      ∀ (buf : List Byte) (offset size : ℤ) (referenced : CString),
        puffinReadDeletionVector jsonbIn crc32 buf offset size referenced ≠ .error .fault ∧
          ∀ ps, puffinReadDeletionVector jsonbIn crc32 buf offset size referenced = .ok ps →
            ∃ blob xs pre post, slice buf offset.toNat size.toNat = some blob ∧
              blob = pre ++ (vectorBytes xs ++ post) ∧ pre.length = 8 ∧ post.length = 4 ∧
              ps = vectorPositions xs ∧ ∀ x ∈ xs, ∀ c ∈ x.bitmap.containers,
                ∀ p ∈ c.positions (x.key <<< 32), p / 65536 = x.key * 65536 + c.key := by
  constructor
  · intro positions vector buf offset size referenced hcard hser hframes
    exact puffinReadDeletionVector_of_frames jsonbIn crc32 hcard hser hframes
  · intro buf offset size referenced
    obtain ⟨hfault, hok⟩ := puffinReadDeletionVector_safe jsonbIn crc32 buf offset size referenced
    refine ⟨hfault, fun ps hps => ?_⟩
    obtain ⟨blob, xs, pre, post, hblob, hsplit, hpre, hpost, hfits, hvals⟩ := hok ps hps
    refine ⟨blob, xs, pre, post, hblob, hsplit, hpre, hpost, hvals, fun x hx c hc p hp => ?_⟩
    have hall : ∀ c ∈ x.bitmap.containers, c.Fits := (hfits.2.1 x hx).2.2.2.2.1
    exact (hall c hc).div hp

end Exact

/-- The vector of the positions 1 and 5: one bucket with one array container. -/
def sampleVector : List RoaringBucket := [⟨0, none, [⟨0, 2, .array [1, 5]⟩], leBytes 4 16⟩]

def samplePayload : List Byte :=
    ascii "\x7b\"blobs\":[\x7b\"type\":\"deletion-vector-v1\",\"offset\":4,\"length\":44,\"properties\":\x7b\"referenced-data-file\":\"d.parquet\"\x7d\x7d]\x7d"

def sampleRoot : Json :=
  .object [(ascii "blobs", .array [.object [(ascii "type", .string (ascii "deletion-vector-v1")),
    (ascii "offset", .numeric 4), (ascii "length", .numeric 44),
    (ascii "properties", .object [(ascii "referenced-data-file", .string (ascii "d.parquet"))])]])]

theorem roaringOf_sampleVector : RoaringOf {1, 5} (vectorBytes sampleVector) := by
  refine ⟨sampleVector, ⟨by decide, ?_, by simp [Ascend, sampleVector]⟩, ?_, rfl, ?_⟩
  · intro x hx
    obtain rfl := mem_singleton.mp hx
    refine ⟨by decide, (fun _ h => by cases h), by decide, rfl, ?_, rfl, rfl⟩
    intro c hc
    obtain rfl := mem_singleton.mp hc
    exact ⟨by simp [Container.EntryFits, Container.entry], rfl, by decide, by decide⟩
  · intro x hx
    obtain rfl := mem_singleton.mp hx
    refine ⟨fun c hc => ?_, pairwise_singleton _ _⟩
    obtain rfl := mem_singleton.mp hc
    exact ⟨by decide, rfl⟩
  · have hpos : vectorPositions sampleVector = [1, 5] := by decide
    rw [hpos]
    simp

theorem puffinReadDeletionVector_exact_sample :
    puffinReadDeletionVector (fun s => if s = textToCstring samplePayload then some sampleRoot
      else none)
      (fun _ => 1047408687)
      (puffinFile [] (dvBlob (fun _ => 1047408687) (vectorBytes sampleVector))
        [] samplePayload) 4 44
      (ascii "d.parquet") = .ok (({1, 5} : Finset ℕ).sort (· ≤ ·)) := by
  refine (puffinReadDeletionVector_exact _ _).1 {1, 5} (vectorBytes sampleVector) _ 4 44 _
    (by decide)
    roaringOf_sampleVector ?_
  have hlen : samplePayload.length = 114 := by
    set_option maxRecDepth 4000 in rfl
  refine ⟨[], [], samplePayload, sampleRoot, rfl, by decide, by omega, by
    omega, rfl, rfl, if_pos rfl, ?_⟩
  refine ⟨[], _, [], _, rfl, nofun, ⟨by norm_num, by norm_num, _, rfl, rfl, rfl⟩, rfl, rfl,
    rfl, rfl⟩

end PgColumnar.Iceberg
