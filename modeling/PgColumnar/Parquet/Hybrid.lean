import PgColumnar.Lib.Bitmap
import PgColumnar.Lib.Cursor
import PgColumnar.Lib.Varint

/-!
# The hybrid of runs and packed bits

Levels and dictionary indices are stored as runs.  A header whose low bit is clear repeats one
value; one whose low bit is set announces groups of eight values, packed with no gaps.  The
decoder is `rle_bitpack_decode`, the writer of one packed run `build_rle_levels`.

## Main definitions

* `rleBitpackDecode`, `buildRleLevels` — the decoder, and the writer of levels.

## Main results

* `rleBitpackDecode_exact` — runs that hold enough values are decoded, and any bytes are safe.
-/

namespace PgColumnar.Parquet

open Bytes Cursor List Nat Varint

/-! ### The decoder -/

/-- Value `v` of a packed run, bit by bit. -/
def packedValue (buf : List Byte) (pos bitWidth v : ℕ) : Except Fault ℕ :=
  (List.range bitWidth).foldlM (fun val bit => do
      let b ← byteAt buf (pos + (v * bitWidth + bit) / 8)
      pure (if b.getLsbD ((v * bitWidth + bit) % 8) then val ||| 2 ^ bit else val)) 0

def packedLoop (buf : List Byte) (pos bitWidth count : ℕ) : ℕ → ℕ → List ℕ → Except Fault (List ℕ)
  | 0, _, out => .ok out
  | left + 1, v, out =>
    if out.length < count then do
      let val ← packedValue buf pos bitWidth v
      packedLoop buf pos bitWidth count left (v + 1) (out ++ [val])
    else .ok out

/-- One turn of the loop: the position behind the run, or none where the source returns false. -/
def runStep (buf : List Byte) (bitWidth count pos : ℕ) (out : List ℕ) :
    Except Fault (Option ℕ × List ℕ) :=
  -- a header cut short by the end of the buffer stands as it is
  let header := Varint.scan 64 63 (buf.drop pos) 0 0
  let pos := pos + header.2.2
  if header.1 = .overlong then .ok (none, out)
  else if header.2.1 % 2 = 1 then
    let ngroups := header.2.1 / 2
    if (buf.length - pos) / bitWidth < ngroups then .ok (none, out)
    else do
      let out ← packedLoop buf pos bitWidth count (ngroups * 8) 0 out
      pure (some (pos + ngroups * bitWidth), out)
  else
    let nbytes := (bitWidth + 7) / 8
    if buf.length - pos < nbytes then .ok (none, out)
    else do
      let val ← takeAt buf pos nbytes
      let runlen := min (header.2.1 / 2) (count - out.length)
      pure (some (pos + nbytes), out ++ List.replicate runlen (leNat val))

/-- `none` when the fuel runs out. -/
def decodeLoop (buf : List Byte) (bitWidth count : ℕ) :
    ℕ → ℕ → List ℕ → Except Fault (Option (Bool × List ℕ))
  | 0, _, _ => .ok none
  | fuel + 1, pos, out =>
    if out.length < count then do
      match ← runStep buf bitWidth count pos out with
      | (none, out) => pure (some (false, out))
      | (some pos, out) => decodeLoop buf bitWidth count fuel pos out
    else .ok (some (true, out))

/-- `rle_bitpack_decode` -/
def rleBitpackDecode (buf : List Byte) (bitWidth count : ℤ) :
    Except Fault (Option (Bool × List ℕ)) :=
  if bitWidth = 0 then .ok (some (true, List.replicate count.toNat 0))
  else if bitWidth < 0 ∨ bitWidth > 32 then .ok (some (false, []))
  else decodeLoop buf bitWidth.toNat count.toNat (buf.length + 1) 0 []

/-! ### The writer -/

/-- The bits of level `i`, ORed into the zeroed buffer. -/
def packLevel (bitWidth : ℕ) (packed : List Byte) (i level : ℕ) : List Byte :=
  (List.range bitWidth).foldl (fun packed b =>
      if level.testBit b then
        packed.modify ((i * bitWidth + b) / 8) (· ||| BitVec.ofNat 8 (2 ^ ((i * bitWidth + b) % 8)))
      else packed) packed

def packLevels (bitWidth : ℕ) : ℕ → List ℕ → List Byte → List Byte
  | _, [], packed => packed
  | i, level :: levels, packed =>
    packLevels bitWidth (i + 1) levels (packLevel bitWidth packed i level)

/-- `build_rle_levels`, the length in front included. -/
def buildRleLevels (levels : List ℕ) (bitWidth : ℕ) : List Byte :=
  let ngroups := (levels.length + 7) / 8
  let packed := packLevels bitWidth 0 levels (List.replicate (ngroups * bitWidth) 0)
  let h := Varint.put (ngroups * 2 + 1) ++ packed
  leBytes 4 h.length ++ h

/-! ### Runs -/

inductive Run
  | rle (len value : ℕ)
  | packed (values : List ℕ)

def Run.values : Run → List ℕ
  | rle len value => List.replicate len value
  | packed values => values

/-- A header of at most ten bytes, whose low 64 bits count. -/
def Header (bs : List Byte) (header : ℕ) : Prop :=
  ∃ n, Varint.Encodes bs n ∧ bs.length ≤ 10 ∧ header = n % 2 ^ 64

inductive EncodesRun (bitWidth : ℕ) : Run → List Byte → Prop
  | rle {hdr val : List Byte} {len : ℕ} : Header hdr (2 * len) → val.length = (bitWidth + 7) / 8 →
      EncodesRun bitWidth (.rle len (leNat val)) (hdr ++ val)
  | packed {hdr body : List Byte} {ngroups : ℕ} {values : List ℕ} : Header hdr (2 * ngroups + 1) →
      body.length = ngroups * bitWidth → values.length = ngroups * 8 →
      (∀ v < ngroups * 8, values[v]? = some (fieldAt body (v * bitWidth) bitWidth)) →
      EncodesRun bitWidth (.packed values) (hdr ++ body)

inductive EncodesRuns (bitWidth : ℕ) : List Run → List Byte → Prop
  | nil : EncodesRuns bitWidth [] []
  | cons {run : Run} {runs : List Run} {bs rest : List Byte} : EncodesRun bitWidth run bs →
      EncodesRuns bitWidth runs rest → EncodesRuns bitWidth (run :: runs) (bs ++ rest)

variable {buf bs body : List Byte} {w count pos : ℕ} {out : List ℕ} {run : Run} {runs : List Run}

/-! ### Packed values -/

theorem fieldAt_succ (body : List Byte) (pos n : ℕ) : fieldAt body pos (n + 1) =
      if bitAt body (pos + n) then fieldAt body pos n ||| 2 ^ n else fieldAt body pos n := by
  apply eq_of_testBit_eq
  intro i
  split
  · next h =>
    rw [testBit_or, testBit_fieldAt, testBit_fieldAt, testBit_two_pow]
    rcases lt_trichotomy i n with hi | rfl | hi
    · simp [hi, hi.ne', lt_succ_of_lt hi]
    · simp [h]
    · simp [hi.ne, not_lt.mpr hi.le, not_lt.mpr (succ_le_of_lt hi)]
  · next h =>
    rw [testBit_fieldAt, testBit_fieldAt]
    rcases lt_trichotomy i n with hi | rfl | hi
    · simp [hi, lt_succ_of_lt hi]
    · simp [h]
    · simp [not_lt.mpr hi.le, not_lt.mpr (succ_le_of_lt hi)]

theorem byteAt_bit (hat : At buf pos body) {i : ℕ} (hi : i < 8 * body.length) :
    ∃ b, byteAt buf (pos + i / 8) = .ok b ∧ b.getLsbD (i % 8) = bitAt body i := by
  have hlt : i / 8 < body.length := by omega
  have hsplit : body = body.take (i / 8) ++ (body[i / 8] :: body.drop (i / 8 + 1)) := by
    rw [cons_getElem_drop_succ, take_append_drop]
  rw [hsplit] at hat
  have hbyte := byteAt_of_at (at_append.mp hat).2
  rw [length_take_of_le hlt.le] at hbyte
  exact ⟨_, hbyte, by simp [bitAt, hlt]⟩

theorem packedValue_eq (hat : At buf pos body) {v : ℕ} (hv : v * w + w ≤ 8 * body.length) :
    packedValue buf pos w v = .ok (fieldAt body (v * w) w) := by
  have hprefix : ∀ n ≤ w, (List.range n).foldlM (fun val bit => do
        let b ← byteAt buf (pos + (v * w + bit) / 8)
        pure (if b.getLsbD ((v * w + bit) % 8) then val ||| 2 ^ bit else val)) 0 =
      Except.ok (ε := Fault) (fieldAt body (v * w) n) := by
    intro n hn
    induction n with
    | zero => simp [fieldAt, mod_one, pure, Except.pure]
    | succ n ih =>
      obtain ⟨b, hb, hbit⟩ := byteAt_bit hat (i := v * w + n) (by omega)
      rw [range_succ, foldlM_append, ih (by omega), fieldAt_succ, ← hbit]
      simp [hb, bind, Except.bind, pure, Except.pure]
  exact hprefix w le_rfl

/-- The loop writes the values of the run from `v` on, as many as are still wanted. -/
theorem packedLoop_eq (hat : At buf pos body) {values : List ℕ} {left v : ℕ}
    (hlen : values.length = v + left) (hbody : (v + left) * w ≤ 8 * body.length)
    (hvalues : ∀ i < v + left, values[i]? = some (fieldAt body (i * w) w)) :
    packedLoop buf pos w count left v out =
      .ok (out ++ (values.drop v).take (count - out.length)) := by
  induction left generalizing v out with
  | zero =>
    rw [packedLoop, drop_eq_nil_of_le (by omega), take_nil, append_nil]
  | succ left ih =>
    rw [packedLoop]
    split
    · next hmore =>
      have hv := hvalues v (by omega)
      have hstep : v * w + w ≤ 8 * body.length := by
        refine le_trans ?_ hbody
        rw [← succ_mul]
        exact mul_le_mul_right _ (by omega)
      have hlt : v < values.length := by omega
      rw [getElem?_eq_getElem hlt, Option.some.injEq] at hv
      rw [packedValue_eq hat hstep]
      dsimp only [bind, Except.bind]
      rw [ih (by omega) (by rwa [show v + 1 + left = v + (left + 1) by omega])
        (fun i hi => hvalues i (by omega)), drop_eq_getElem_cons hlt, hv,
        length_append, length_singleton,
        show count - out.length = count - (out.length + 1) + 1 by omega, take_succ_cons]
      simp
    · next hfull =>
      rw [Nat.sub_eq_zero_of_le (Nat.le_of_not_lt hfull), take_zero, append_nil]

/-! ### One turn of the loop -/

theorem Header.scan {hdr : List Byte} {header : ℕ} (h : Header hdr header) (hat : At buf pos hdr) :
    Varint.scan 64 63 (buf.drop pos) 0 0 = (.done, header, hdr.length) := by
  obtain ⟨n, hn, hlen, rfl⟩ := h
  obtain ⟨post, hdrop⟩ := hat.drop
  have hread : Varint.scan 64 63 (hdr ++ post) 0 0 =
    (.done, (0 + 2 ^ 0 * n) % 2 ^ 64, hdr.length) :=
    scan_of_encodes (by decide) hn post (by decide) (by omega)
  rw [hdrop, hread, zero_add, pow_zero, one_mul]

theorem runStep_of_encodes (hw : 0 < w) (h : EncodesRun w run bs) (hat : At buf pos bs) :
    runStep buf w count pos out =
      .ok (some (pos + bs.length), out ++ run.values.take (count - out.length)) := by
  cases h with
  | @rle hdr val len hheader hval =>
    obtain ⟨hhdr, hbody⟩ := at_append.mp hat
    have hle := hbody.le
    rw [hval] at hle
    have hroom : ¬ buf.length - (pos + hdr.length) < (w + 7) / 8 := by omega
    have htake := takeAt_of_at hbody
    rw [hval] at htake
    have hcount : List.replicate (min len (count - out.length)) (leNat val) =
        (List.replicate len (leNat val)).take (count - out.length) := by
      rw [take_replicate, min_comm]
    simp [runStep, hheader.scan hhdr, hroom, htake, hcount, Run.values, bind, Except.bind, pure,
      Except.pure, hval, add_assoc]
  | @packed hdr body ngroups values hheader hbodylen hvalues hfields =>
    obtain ⟨hhdr, hbody⟩ := at_append.mp hat
    have hle := hbody.le
    have hdiv : (2 * ngroups + 1) / 2 = ngroups := by omega
    have hroom : ¬ (buf.length - (pos + hdr.length)) / w < ngroups := by
      rw [not_lt, le_div_iff_mul_le hw]
      omega
    have hloop : packedLoop buf (pos + hdr.length) w count (ngroups * 8) 0 out =
        .ok (out ++ (values.drop 0).take (count - out.length)) :=
      packedLoop_eq hbody (by omega) (by rw [hbodylen]; apply le_of_eq; ring)
        (fun i hi => hfields i (by omega))
    rw [drop_zero] at hloop
    simp [runStep, hheader.scan hhdr, hdiv, hroom, hloop, Run.values, bind, Except.bind, pure,
      Except.pure, hbodylen, add_assoc]

/-- At the end of the buffer the header reads as zero, and no value follows. -/
theorem runStep_end (hw : 0 < w) : runStep buf w count buf.length out = .ok (none, out) := by
  have hbytes : 0 < (w + 7) / 8 := by omega
  simp [runStep, Varint.scan, hbytes]

/-- The bytes of a run that the loop has accepted. -/
theorem exists_encodesRun {k header : ℕ} (hpos : pos + k ≤ buf.length)
    (hheader : Header ((buf.drop pos).take k) header)
    (hroom : if header % 2 = 1 then header / 2 * w ≤ buf.length - (pos + k)
      else (w + 7) / 8 ≤ buf.length - (pos + k)) :
    ∃ run bs, EncodesRun w run bs ∧ At buf pos bs ∧ k ≤ bs.length := by
  have hhdr : At buf pos ((buf.drop pos).take k) := (at_of_slice (slice_eq_some hpos)).1
  have hlen : ((buf.drop pos).take k).length = k := by
    rw [length_take, length_drop]
    omega
  split at hroom
  · next hodd =>
    obtain ⟨body, -, hbody, hbodylen⟩ :=
      takeAt_ok (show pos + k + header / 2 * w ≤ buf.length by omega)
    have hheader' : Header ((buf.drop pos).take k) (2 * (header / 2) + 1) := by
      rwa [show 2 * (header / 2) + 1 = header by omega]
    have hrun : EncodesRun w (.packed ((List.range (header / 2 * 8)).map
        fun v => fieldAt body (v * w) w)) ((buf.drop pos).take k ++ body) := by
      refine .packed hheader' hbodylen (by simp) ?_
      intro v hv
      simp [hv]
    exact ⟨_, _, hrun, at_append.mpr ⟨hhdr, by rwa [hlen]⟩, by simp [hlen]⟩
  · next heven =>
    obtain ⟨val, -, hval, hvallen⟩ := takeAt_ok (show pos + k + (w + 7) / 8 ≤ buf.length by omega)
    have hrun : EncodesRun w (.rle (header / 2) (leNat val)) ((buf.drop pos).take k ++ val) := by
      refine .rle ?_ hvallen
      rwa [show 2 * (header / 2) = header by omega]
    exact ⟨_, _, hrun, at_append.mpr ⟨hhdr, by rwa [hlen]⟩, by simp [hlen]⟩

/-- A turn of the loop gives up, stops at the end of the buffer with nothing read, or reads
one run. -/
theorem encodes_of_runStep (hw : 0 < w) (hpos : pos ≤ buf.length) :
    runStep buf w count pos out = .ok (none, out) ∨
      runStep buf w count pos out = .ok (some buf.length, out) ∨
      ∃ run bs, EncodesRun w run bs ∧ At buf pos bs ∧ 0 < bs.length ∧ runStep buf w count pos out =
          .ok (some (pos + bs.length), out ++ run.values.take (count - out.length)) := by
  rcases hpos.eq_or_lt with rfl | hlt
  · exact .inl (runStep_end hw)
  have hne : buf.drop pos ≠ [] := by simpa using hlt
  have hk : (Varint.scan 64 63 (buf.drop pos) 0 0).2.2 ≤ (buf.drop pos).length :=
    scan_le_length
  rw [length_drop] at hk
  have hkpos : 0 < (Varint.scan 64 63 (buf.drop pos) 0 0).2.2 := scan_pos hne
  rcases hstatus : (Varint.scan 64 63 (buf.drop pos) 0 0).1 with _ | _ | _
  · -- a whole header
    have hscan : Varint.scan 64 63 (buf.drop pos) 0 0 =
        (.done, (Varint.scan 64 63 (buf.drop pos) 0 0).2.1,
          (Varint.scan 64 63 (buf.drop pos) 0 0).2.2) :=
      Prod.ext hstatus rfl
    generalize (Varint.scan 64 63 (buf.drop pos) 0 0).2.1 = header at hscan
    generalize (Varint.scan 64 63 (buf.drop pos) 0 0).2.2 = k at hscan hk hkpos
    obtain ⟨n, hn, hval, -, -, hten⟩ := encodes_of_scan (by decide) (by decide) (by decide) hscan
    have hheader : Header ((buf.drop pos).take k) header := by
      refine ⟨n, hn, ?_, by simpa using hval⟩
      rw [length_take]
      omega
    by_cases hroom : if header % 2 = 1 then header / 2 * w ≤ buf.length - (pos + k)
        else (w + 7) / 8 ≤ buf.length - (pos + k)
    · obtain ⟨run, bs, hrun, hat, hle⟩ := exists_encodesRun (by omega) hheader hroom
      exact .inr (.inr ⟨run, bs, hrun, hat, by omega, runStep_of_encodes hw hrun hat⟩)
    · left
      unfold runStep
      rw [hscan]
      dsimp only
      rw [if_neg (by decide)]
      split at hroom
      · next hodd =>
        have hshort : (buf.length - (pos + k)) / w < header / 2 :=
          (Nat.div_lt_iff_lt_mul hw).mpr (Nat.lt_of_not_le hroom)
        rw [if_pos hodd, if_pos hshort]
      · next heven =>
        rw [if_neg heven, if_pos (Nat.lt_of_not_le hroom)]
  · -- the buffer ends within the header
    have hend := scan_ended hstatus
    rw [length_drop] at hend
    have hall : pos + (Varint.scan 64 63 (buf.drop pos) 0 0).2.2 = buf.length := by omega
    unfold runStep
    dsimp only
    rw [hstatus, hall, Nat.sub_self, Nat.zero_div, if_neg (by decide)]
    split
    · split
      · exact .inl rfl
      · next hzero =>
        have hgroups : (Varint.scan 64 63 (buf.drop pos) 0 0).2.1 / 2 = 0 := by omega
        right
        left
        simp [hgroups, packedLoop, bind, Except.bind, pure, Except.pure]
    · rw [if_pos (by omega)]
      exact .inl rfl
  · left
    simp [runStep, hstatus]

/-! ### The whole loop -/

theorem EncodesRun.length_pos (h : EncodesRun w run bs) : 0 < bs.length := by
  have hheader : ∀ {hdr : List Byte} {n : ℕ}, Header hdr n → 0 < hdr.length := by
    intro hdr n h
    obtain ⟨_, hn, -⟩ := h
    exact hn.length_pos
  cases h with
  | rle hhdr | packed hhdr => simp [hheader hhdr]

theorem decodeLoop_of_encodes (hw : 0 < w) (h : EncodesRuns w runs bs) (hat : At buf pos bs)
    {fuel : ℕ} (hfuel : bs.length < fuel)
    (hcount : count ≤ out.length + (runs.flatMap Run.values).length) :
    decodeLoop buf w count fuel pos out =
      .ok (some (true, out ++ (runs.flatMap Run.values).take (count - out.length))) := by
  induction h generalizing pos out fuel with
  | nil =>
    obtain ⟨fuel, rfl⟩ := exists_eq_succ_of_ne_zero (by omega : fuel ≠ 0)
    have hfull : ¬ out.length < count := by simpa using hcount
    simp [decodeLoop, hfull]
  | @cons run runs bs rest hrun hruns ih =>
    obtain ⟨fuel, rfl⟩ := exists_eq_succ_of_ne_zero (by omega : fuel ≠ 0)
    rw [decodeLoop]
    split
    · have hpos := hrun.length_pos
      obtain ⟨hbs, hrest⟩ := at_append.mp hat
      rw [length_append] at hfuel
      rw [flatMap_cons, length_append] at hcount
      rw [runStep_of_encodes hw hrun hbs]
      dsimp only [bind, Except.bind]
      rw [ih hrest (by omega) (by rw [length_append, length_take]; omega),
        flatMap_cons, take_append, length_append, length_take,
        append_assoc, show count - (out.length + min (count - out.length) run.values.length) =
          count - out.length - run.values.length by omega]
    · next hfull =>
      rw [Nat.sub_eq_zero_of_le (Nat.le_of_not_lt hfull), take_zero, append_nil]

theorem encodes_of_decodeLoop (hw : 0 < w) {fuel : ℕ} (hpos : pos ≤ buf.length)
    (hout : out.length ≤ count) (hfuel : buf.length - pos < fuel) :
    ∃ ok out', decodeLoop buf w count fuel pos out = .ok (some (ok, out')) ∧ out'.length ≤ count ∧
      (ok = true → ∃ runs bs, EncodesRuns w runs bs ∧ At buf pos bs ∧
        count ≤ out.length + (runs.flatMap Run.values).length ∧
        out' = out ++ (runs.flatMap Run.values).take (count - out.length)) := by
  induction fuel generalizing pos out with
  | zero => omega
  | succ fuel ih =>
    rw [decodeLoop]
    split
    · next hmore =>
      rcases hpos.eq_or_lt with rfl | hlt
      · rw [runStep_end hw]
        exact ⟨false, out, rfl, hout, by simp⟩
      rcases encodes_of_runStep hw hpos with hstep | hstep | ⟨run, bs, hrun, hat, hlen, hstep⟩
      · rw [hstep]
        exact ⟨false, out, rfl, hout, by simp⟩
      · -- nothing was read, so the next turn gives up
        obtain ⟨fuel, rfl⟩ := exists_eq_succ_of_ne_zero (by omega : fuel ≠ 0)
        rw [hstep]
        dsimp only [bind, Except.bind]
        rw [decodeLoop, if_pos hmore, runStep_end hw]
        exact ⟨false, out, rfl, hout, by simp⟩
      · rw [hstep]
        dsimp only [bind, Except.bind]
        have hle := hat.le
        have htake := length_take_le (count - out.length) run.values
        have hroom : (out ++ run.values.take (count - out.length)).length ≤ count := by
          rw [length_append]
          omega
        obtain ⟨ok, out', heq, hlen', hok⟩ := ih hle hroom (by omega)
        refine ⟨ok, out', heq, hlen', fun htrue => ?_⟩
        obtain ⟨runs, rest, hruns, hrest, hcount, hout'⟩ := hok htrue
        rw [length_append, length_take] at hcount
        refine ⟨run :: runs, bs ++ rest, .cons hrun hruns, at_append.mpr ⟨hat, hrest⟩, ?_, ?_⟩
        · rw [flatMap_cons, length_append]
          omega
        · rw [hout', flatMap_cons, take_append, length_append, length_take,
            append_assoc, show count - (out.length + min (count - out.length) run.values.length) =
              count - out.length - run.values.length by omega]
    · next hfull =>
      refine ⟨true, out, rfl, hout, fun _ => ⟨[], [], .nil, ?_, by simp; omega, by simp⟩⟩
      exact ⟨buf.take pos, buf.drop pos, by simp, by simp [hpos]⟩

/-! ### The writer's run -/

variable {packed : List Byte}

theorem bitAt_packLevel {i : ℕ} (hlen : i * w + w ≤ 8 * packed.length)
    (level j : ℕ) : (packLevel w packed i level).length = packed.length ∧
      (bitAt (packLevel w packed i level) j = true ↔ bitAt packed j = true ∨
        i * w ≤ j ∧ j < i * w + w ∧ level.testBit (j - i * w) = true) := by
  -- the bits below `n` have been stored
  have hprefix : ∀ n ≤ w, ∀ q, q = (List.range n).foldl (fun packed b =>
        if level.testBit b then
          packed.modify ((i * w + b) / 8) (· ||| BitVec.ofNat 8 (2 ^ ((i * w + b) % 8)))
        else packed) packed →
      q.length = packed.length ∧ (bitAt q j = true ↔ bitAt packed j = true ∨
        i * w ≤ j ∧ j < i * w + n ∧ level.testBit (j - i * w) = true) := by
    intro n hn
    induction n with
    | zero =>
      intro q hq
      subst hq
      refine ⟨rfl, (or_iff_left ?_).symm⟩
      omega
    | succ n ih =>
      intro q hq
      rw [range_succ, foldl_append, foldl_cons, foldl_nil] at hq
      obtain ⟨hplen, hpbit⟩ := ih (by omega) _ rfl
      split at hq
      · next hset =>
        have hlt : (i * w + n) / 8 < packed.length := by omega
        have hbyte : (BitVec.ofNat 8 (2 ^ ((i * w + n) % 8))).getLsbD (j % 8) =
            decide ((i * w + n) % 8 = j % 8) := by
          rw [BitVec.getLsbD_ofNat, testBit_two_pow]
          simp [mod_lt]
        subst hq
        refine ⟨by rw [length_modify, hplen], ?_⟩
        rw [bitAt_modify_or (hplen ▸ hlt), Bool.or_eq_true, Bool.and_eq_true, hbyte, hpbit,
          decide_eq_true_eq, decide_eq_true_eq]
        constructor
        · intro h
          rcases h with (h | ⟨h1, h2, h3⟩) | ⟨h1, h2⟩
          · exact .inl h
          · exact .inr ⟨h1, by omega, h3⟩
          · have hj : j = i * w + n := by omega
            subst hj
            exact .inr ⟨by omega, by omega, by simpa using hset⟩
        · intro h
          rcases h with h | ⟨h1, h2, h3⟩
          · exact .inl (.inl h)
          · rcases lt_or_ge j (i * w + n) with hj | hj
            · exact .inl (.inr ⟨h1, hj, h3⟩)
            · exact .inr ⟨by omega, by omega⟩
      · next hclear =>
        subst hq
        refine ⟨hplen, hpbit.trans (or_congr_right ?_)⟩
        constructor
        · intro h
          exact ⟨h.1, by omega, h.2.2⟩
        · intro h
          refine ⟨h.1, ?_, h.2.2⟩
          by_contra hj
          have hj' : j - i * w = n := by omega
          rw [hj'] at h
          exact hclear h.2.2
  exact hprefix w le_rfl _ rfl

variable {levels : List ℕ}

theorem bitAt_packLevels {i : ℕ} (hlen : (i + levels.length) * w ≤ 8 * packed.length) (j : ℕ) :
    (packLevels w i levels packed).length = packed.length ∧
      (bitAt (packLevels w i levels packed) j = true ↔ bitAt packed j = true ∨
        ∃ m level, levels[m]? = some level ∧ (i + m) * w ≤ j ∧ j < (i + m) * w + w ∧
          level.testBit (j - (i + m) * w) = true) := by
  induction levels generalizing i packed with
  | nil => simp [packLevels]
  | cons level levels ih =>
    have hroom : i * w + w ≤ 8 * packed.length := by
      refine le_trans ?_ hlen
      rw [← succ_mul]
      exact mul_le_mul_right _ (by simp)
    obtain ⟨hplen, hpbit⟩ := bitAt_packLevel hroom level j
    rw [length_cons, show i + (levels.length + 1) = i + 1 + levels.length by omega] at hlen
    rw [← hplen] at hlen
    obtain ⟨hqlen, hqbit⟩ := ih hlen
    refine ⟨by rw [packLevels, hqlen, hplen], ?_⟩
    rw [packLevels, hqbit, hpbit]
    constructor
    · intro h
      rcases h with (h | h) | ⟨m, l, hm, h⟩
      · exact .inl h
      · exact .inr ⟨0, level, rfl, by simpa using h⟩
      · rw [show i + 1 + m = i + (m + 1) by omega] at h
        exact .inr ⟨m + 1, l, hm, h⟩
    · intro h
      rcases h with h | ⟨m, l, hm, h⟩
      · exact .inl (.inl h)
      · cases m with
        | zero =>
          obtain rfl : level = l := by simpa using hm
          exact .inl (.inr (by simpa using h))
        | succ m =>
          rw [show i + (m + 1) = i + 1 + m by omega] at h
          exact .inr ⟨m, l, hm, h⟩

/-- The levels, and zeros up to a whole group. -/
def paddedLevels (levels : List ℕ) : List ℕ :=
  levels ++ List.replicate ((levels.length + 7) / 8 * 8 - levels.length) 0

theorem encodesRun_buildRleLevels (hlen : levels.length < 2 ^ 63)
    (hlevels : ∀ l ∈ levels, l < 2 ^ w) :
    EncodesRun w (.packed (paddedLevels levels)) ((buildRleLevels levels w).drop 4) := by
  set ngroups := (levels.length + 7) / 8 with hgroups
  have hcapacity : (0 + levels.length) * w ≤
    8 * (List.replicate (ngroups * w) (0 : Byte)).length := by
    rw [length_replicate, zero_add, ← mul_assoc]
    exact mul_le_mul_right _ (by omega)
  have hbits := bitAt_packLevels hcapacity
  have hdrop : (buildRleLevels levels w).drop 4 =
      Varint.put (ngroups * 2 + 1) ++ packLevels w 0 levels (List.replicate (ngroups * w) 0) := by
    rw [buildRleLevels, drop_left' (length_leBytes 4 _)]
  rw [hdrop]
  have hheader : Header (Varint.put (ngroups * 2 + 1)) (2 * ngroups + 1) := by
    refine ⟨ngroups * 2 + 1, encodes_put (by omega), length_put_le _, ?_⟩
    rw [mod_eq_of_lt (by omega), mul_comm]
  refine .packed hheader ?_ ?_ ?_
  · rw [(hbits 0).1, length_replicate]
  · rw [paddedLevels, length_append, length_replicate]
    omega
  · intro v hv
    have hfield : fieldAt (packLevels w 0 levels (List.replicate (ngroups * w) 0)) (v * w) w =
        levels.getD v 0 := by
      apply eq_of_testBit_eq
      intro b
      rw [testBit_fieldAt, Bool.eq_iff_iff, Bool.and_eq_true, decide_eq_true_eq, (hbits _).2]
      have hzero : bitAt (List.replicate (ngroups * w) 0) (v * w + b) = false := by
        exact bitAt_zeros _ _
      simp only [hzero, Bool.false_eq_true, false_or, zero_add]
      constructor
      · intro h
        obtain ⟨hb, m, level, hm, hlow, hhigh, hbit⟩ := h
        -- the fields do not overlap
        have hmv : m = v := by
          rcases lt_trichotomy m v with h | h | h
          · have := mul_le_mul_right w (succ_le_of_lt h)
            rw [succ_mul] at this
            omega
          · exact h
          · have := mul_le_mul_right w (succ_le_of_lt h)
            rw [succ_mul] at this
            omega
        subst hmv
        rw [getD_eq_getElem?_getD, hm]
        simpa using hbit
      · intro h
        rw [getD_eq_getElem?_getD] at h
        cases hm : levels[v]? with
        | none => simp [hm] at h
        | some level =>
          have hbit : level.testBit b = true := by simpa [hm] using h
          have hb : b < w := by
            by_contra hge
            have hlt := (hlevels level (mem_of_getElem? hm)).trans_le
              (Nat.pow_le_pow_right (by decide : 0 < 2) (Nat.le_of_not_lt hge))
            rw [testBit_lt_two_pow hlt] at hbit
            cases hbit
          exact ⟨hb, v, level, hm, by omega, by omega, by simpa using hbit⟩
    rw [hfield, paddedLevels, getD_eq_getElem?_getD]
    rcases lt_or_ge v levels.length with h | h
    · rw [getElem?_append_left h, getElem?_eq_getElem h, Option.getD_some]
    · rw [getElem?_append_right h, getElem?_replicate, if_pos (by omega),
        getElem?_eq_none h, Option.getD_none]

/-! ### The decoder -/

/-- **The hybrid decoder is exact.**  Runs that hold enough values give the first of them, and
so does the writer's run; any other bytes end the loop inside the buffer, with no more values
than were wanted and without success unless runs in front of the buffer hold them all. -/
theorem rleBitpackDecode_exact (buf : List Byte) (bitWidth count : ℤ) :
    (1 ≤ bitWidth → bitWidth ≤ 32 → ∀ runs bs, EncodesRuns bitWidth.toNat runs bs → bs <+: buf →
      count ≤ (runs.flatMap Run.values).length →
      rleBitpackDecode buf bitWidth count =
        .ok (some (true, (runs.flatMap Run.values).take count.toNat))) ∧
    (0 ≤ bitWidth → bitWidth ≤ 32 → ∀ levels : List ℕ, levels.length < 2 ^ 63 →
      (∀ l ∈ levels, l < 2 ^ bitWidth.toNat) →
      rleBitpackDecode ((buildRleLevels levels bitWidth.toNat).drop 4) bitWidth levels.length =
        .ok (some (true, levels))) ∧
    ∃ ok out, rleBitpackDecode buf bitWidth count = .ok (some (ok, out)) ∧
      out.length ≤ count.toNat ∧
      (ok = true → out.length = count.toNat ∧ (bitWidth ≠ 0 → ∃ runs bs,
        EncodesRuns bitWidth.toNat runs bs ∧ bs <+: buf ∧
        count ≤ (runs.flatMap Run.values).length ∧
        out = (runs.flatMap Run.values).take count.toNat)) := by
  refine ⟨?_, ?_, ?_⟩
  · intro hlow hhigh runs bs hruns hprefix hcount
    obtain ⟨tail, rfl⟩ := hprefix
    have hfuel : bs.length < (bs ++ tail).length + 1 := by simp
    have hwanted : count.toNat ≤ ([] : List ℕ).length + (runs.flatMap Run.values).length := by
      rw [length_nil]
      omega
    unfold rleBitpackDecode
    rw [if_neg (by omega), if_neg (by omega),
      decodeLoop_of_encodes (by omega) hruns (at_zero bs tail) hfuel hwanted, nil_append,
      length_nil, Nat.sub_zero]
  · intro hlow hhigh levels hlen hlevels
    unfold rleBitpackDecode
    split
    · next hzero =>
      have hall : levels = List.replicate levels.length 0 := by
        refine eq_replicate_iff.mpr ⟨rfl, fun l hl => ?_⟩
        have hlt := hlevels l hl
        simp only [hzero, Int.toNat_zero, pow_zero] at hlt
        omega
      rw [Int.toNat_natCast, ← hall]
    · have hrun := encodesRun_buildRleLevels hlen hlevels
      have hruns : EncodesRuns bitWidth.toNat [.packed (paddedLevels levels)]
          ((buildRleLevels levels bitWidth.toNat).drop 4 ++ []) := .cons hrun .nil
      rw [append_nil] at hruns
      have hat := at_zero ((buildRleLevels levels bitWidth.toNat).drop 4) []
      rw [append_nil] at hat
      have hwanted : levels.length ≤ ([] : List ℕ).length +
          ([Run.packed (paddedLevels levels)].flatMap Run.values).length := by
        simp [Run.values, paddedLevels]
      rw [if_neg (by omega), Int.toNat_natCast,
        decodeLoop_of_encodes (by omega) hruns hat (lt_succ_self _) hwanted]
      simp [Run.values, paddedLevels]
  · unfold rleBitpackDecode
    split
    · next hzero =>
      exact ⟨true, _, rfl, by simp, fun _ => ⟨by simp, fun h => absurd hzero h⟩⟩
    · split
      · exact ⟨false, [], rfl, by simp, by simp⟩
      · next hzero hrange =>
        have hw : 0 < bitWidth.toNat := by omega
        have hfuel : buf.length - 0 < buf.length + 1 := by omega
        have hnone : ([] : List ℕ).length ≤ count.toNat := zero_le _
        -- what the loop accepts are runs
        obtain ⟨ok, out, heq, hlen, hok⟩ := encodes_of_decodeLoop hw (zero_le _) hnone hfuel
        refine ⟨ok, out, heq, hlen, fun htrue => ?_⟩
        obtain ⟨runs, bs, hruns, hat, hcount, rfl⟩ := hok htrue
        rw [length_nil, zero_add] at hcount
        rw [nil_append, length_nil, Nat.sub_zero]
        refine ⟨by rw [length_take]; omega, fun _ => ⟨runs, bs, hruns, ?_, by omega, rfl⟩⟩
        obtain ⟨post, hpost⟩ := hat.drop
        exact ⟨post, by rw [← hpost, drop_zero]⟩

/-- Two threes as a run, then a packed group. -/
theorem rleBitpackDecode_exact_two :
    rleBitpackDecode [4, 3, 3, 0x88, 0xc6, 0xfa] 3 9 = .ok
      (some (true, [3, 3, 0, 1, 2, 3, 4, 5, 6])) := by
  have hfour : Header [4] (2 * 2) := ⟨4, .last 4 (by decide), by decide, by decide⟩
  have hthree : Header [3] (2 * 1 + 1) := ⟨3, .last 3 (by decide), by decide, by decide⟩
  have hval : ([3] : List Byte).length = (3 + 7) / 8 := rfl
  have hbody : ([0x88, 0xc6, 0xfa] : List Byte).length = 1 * 3 := rfl
  have hrle : EncodesRun 3 (.rle 2 3) [4, 3] := .rle hfour hval
  have hpacked : EncodesRun 3 (.packed [0, 1, 2, 3, 4, 5, 6, 7]) [3, 0x88, 0xc6, 0xfa] :=
    .packed hthree hbody rfl (by decide)
  exact (rleBitpackDecode_exact [4, 3, 3, 0x88, 0xc6, 0xfa] 3 9).1 (by decide) (by decide) _ _
    (.cons hrle (.cons hpacked .nil)) (prefix_refl _) (by decide)

end PgColumnar.Parquet
