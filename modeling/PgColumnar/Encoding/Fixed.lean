import PgColumnar.Encoding.BitPack
import PgColumnar.Lib.Runs

/-!
# The fixed-width encodings: RLE, FOR, DELTA and DOD

Each encoder works on the values of the stream and gives up when its output is
not smaller than the raw stream; each decoder checks its header against the
declared lengths before it reads a body.

## Main definitions

* `encodeRle`, `encodeFor`, `encodeDelta`, `encodeDod` — the encoders, and their decoders.

## Main results

* `decodeRle_encodeRle`, `decodeFor_encodeFor`, `decodeDelta_encodeDelta`, `decodeDod_encodeDod` —
  the round trips.
-/

namespace PgColumnar
namespace Encoding

open Bytes Runs List
open BitVec (add_comm getLsbD_xor le_refl le_trans sub_add_cancel toNat_ofNat)

/-- The last step of the encoders: an output that does not beat the raw size is dropped. -/
def keepIfSmaller (rawLen : ℕ) (buf : List Byte) : Option (List Byte) :=
  if rawLen ≤ buf.length then none else some buf

variable {rawLen : ℕ} {out : List Byte}

theorem keepIfSmaller_eq_some {buf : List Byte}
    (h : keepIfSmaller rawLen buf = some out) : out = buf ∧ out.length < rawLen := by
  unfold keepIfSmaller at h
  split at h
  · exact absurd h (by simp)
  · next hlt =>
    obtain rfl := Option.some.inj h
    exact ⟨rfl, by omega⟩

/-! ### RLE: `[uint32 count][W bytes]` per run -/

/-- The bytes of one run. -/
def runBytes (r : ℕ × List Byte) : List Byte := leBytes 4 r.1 ++ r.2

/-- The loop of `encode_rle`: `run` copies of `val` have been scanned by the inner
loop; when the next value differs the run is appended and the size is tested. -/
def rleLoop (rawLen : ℕ) (buf : List Byte) (val : List Byte) (run : ℕ) :
    List (List Byte) → Option (List Byte)
  | [] => keepIfSmaller rawLen (buf ++ runBytes (run, val))
  | v :: vs =>
    if v = val then rleLoop rawLen buf val (run + 1) vs
    else
      let buf' := buf ++ runBytes (run, val)
      -- give up early if we are not beating the raw size
      if rawLen ≤ buf'.length then none else rleLoop rawLen buf' v 1 vs

/-- `encode_rle`. -/
def encodeRle (rawLen : ℕ) : List (List Byte) → Option (List Byte)
  | [] => some []
  | v :: vs => rleLoop rawLen [] v 1 vs

/-- The loop of `decode_rle` on the bytes from `p` to `end`, with `left` values still
to produce.  Every iteration consumes a run header, so `fuel` bounds the runs. -/
def rleDecodeLoop (w : ℕ) : ℕ → ℕ → List Byte → Except Fault (List Byte)
  | 0, _, _ => .error .diverges
  | fuel + 1, left, p =>
    if left = 0 then .ok []
    else if p.length < 4 then .error (.corrupt "RLE run header past encoded length")
    else do
      let run := leNat (← readBytes p 0 4)
      let p := p.drop 4
      if p.length < w then .error (.corrupt "RLE run value past encoded length")
      else
        let val ← readBytes p 0 w
        let k := min run left
        let rest ← rleDecodeLoop w fuel (left - k) (p.drop w)
        return (List.replicate k val).flatten ++ rest

/-- `decode_rle`. -/
def decodeRle (enc : List Byte) (w n : ℕ) : Except Fault (List Byte) :=
  rleDecodeLoop w (enc.length + 1) n enc

theorem readBytes_append (as bs : List Byte) : readBytes (as ++ bs) 0 as.length = .ok as := by
  rw [readBytes, slice_append_zero]

variable {w : ℕ}

theorem length_flatMap_runBytes {rs : List (ℕ × List Byte)}
    (h : ∀ r ∈ rs, r.2.length = w) : (rs.flatMap runBytes).length = rs.length * (4 + w) := by
  induction rs with
  | nil => simp
  | cons r rs ih =>
    rw [flatMap_cons, length_append, ih fun r' hr' => h r' (mem_cons_of_mem r hr'),
      runBytes, length_append, length_leBytes, h r mem_cons_self, length_cons]
    ring

theorem rleLoop_eq (rawLen : ℕ) (buf val : List Byte) (run : ℕ) (vs : List (List Byte)) :
    rleLoop rawLen buf val run vs =
      keepIfSmaller rawLen (buf ++ (runsFrom val run vs).flatMap runBytes) := by
  induction vs generalizing buf val run with
  | nil => simp [rleLoop, runsFrom]
  | cons v vs ih =>
    rw [rleLoop, runsFrom]
    split
    · exact ih _ _ _
    · rw [flatMap_cons, ← append_assoc]
      dsimp only
      split
      · -- the buffer only grows, so the final size would have failed as well
        next hbig =>
        rw [keepIfSmaller, if_pos]
        rw [length_append]
        omega
      · exact ih _ _ _

variable {vals : List (List Byte)}

/-- **`encode_rle` keeps the runs exactly when they are smaller than the stream.** -/
theorem encodeRle_eq (h : vals ≠ []) :
    encodeRle rawLen vals = keepIfSmaller rawLen ((runs vals).flatMap runBytes) := by
  cases vals with
  | nil => exact absurd rfl h
  | cons v vs => rw [encodeRle, rleLoop_eq, nil_append, runs]

theorem rleDecodeLoop_runs {rs : List (ℕ × List Byte)} (fuel : ℕ)
    (hw : ∀ r ∈ rs, r.2.length = w) (hcount : ∀ r ∈ rs, r.1 < 2 ^ 32) (hpos : ∀ r ∈ rs, 0 < r.1)
    (hfuel : rs.length < fuel) :
    rleDecodeLoop w fuel (rs.map Prod.fst).sum (rs.flatMap runBytes) =
      .ok (rs.flatMap fun r => List.replicate r.1 r.2).flatten := by
  induction rs generalizing fuel with
  | nil =>
    obtain ⟨fuel, rfl⟩ := Nat.exists_eq_succ_of_ne_zero hfuel.ne'
    rfl
  | cons r rs ih =>
    obtain ⟨fuel, rfl⟩ := Nat.exists_eq_succ_of_ne_zero (Nat.ne_of_gt (Nat.zero_lt_of_lt hfuel))
    have hlen : r.2.length = w := hw r mem_cons_self
    have hr : 0 < r.1 := hpos r mem_cons_self
    have hrun : leNat (leBytes 4 r.1) = r.1 :=
      leNat_leBytes_of_lt (lt_of_lt_of_le (hcount r mem_cons_self) (by norm_num))
    have hrest := ih fuel (fun r' h' => hw r' (mem_cons_of_mem r h'))
      (fun r' h' => hcount r' (mem_cons_of_mem r h'))
      (fun r' h' => hpos r' (mem_cons_of_mem r h')) (by simpa using hfuel)
    rw [map_cons, sum_cons, flatMap_cons, flatMap_cons, runBytes,
      append_assoc, rleDecodeLoop, if_neg (by omega), if_neg (by simp)]
    have hhdr := readBytes_append (leBytes 4 r.1) (r.2 ++ rs.flatMap runBytes)
    have hval := readBytes_append r.2 (rs.flatMap runBytes)
    have hdrop : (leBytes 4 r.1 ++ (r.2 ++ rs.flatMap runBytes)).drop 4 =
        r.2 ++ rs.flatMap runBytes := by
      rw [drop_append_of_le_length (by simp), drop_of_length_le (by simp), nil_append]
    rw [length_leBytes] at hhdr
    rw [hlen] at hval
    have hdrop' : (r.2 ++ rs.flatMap runBytes).drop w = rs.flatMap runBytes := by
      rw [← hlen, drop_left]
    have hmin : min r.1 (r.1 + (rs.map Prod.fst).sum) = r.1 := by omega
    simp only [hhdr, hdrop, bind, Except.bind, hval, hdrop', hrun, hmin, Nat.add_sub_cancel_left,
      hrest, pure, Except.pure]
    rw [if_neg (by simp [hlen])]
    simp

/-- **RLE round trip.** -/
theorem decodeRle_encodeRle
    (hne : vals ≠ []) (hw : ∀ v ∈ vals, v.length = w) (hn : vals.length < 2 ^ 32)
    (h : encodeRle rawLen vals = some out) :
    decodeRle out w vals.length = .ok vals.flatten := by
  rw [encodeRle_eq hne] at h
  obtain ⟨rfl, -⟩ := keepIfSmaller_eq_some h
  have hrw : ∀ r ∈ runs vals, r.2.length = w := fun r hr => hw _ (mem_of_mem_runs r hr)
  have hdec := rleDecodeLoop_runs (((runs vals).flatMap runBytes).length + 1) hrw
    (fun r hr => lt_of_le_of_lt (runs_count_le r hr) hn) runs_count_pos (by
      rw [length_flatMap_runBytes hrw]
      nlinarith)
  rwa [sum_runs, flatMap_runs] at hdec

/-- The size of the run-length form. -/
def rleSize (w : ℕ) (vals : List (List Byte)) : ℕ := (runs vals).length * (4 + w)

theorem encodeRle_eq_size (rawLen : ℕ) (hne : vals ≠ []) (hw : ∀ v ∈ vals, v.length = w) :
    (encodeRle rawLen vals).map List.length =
      if rawLen ≤ rleSize w vals then none else some (rleSize w vals) := by
  have hlen : ((runs vals).flatMap runBytes).length = rleSize w vals :=
    length_flatMap_runBytes fun r hr => hw _ (mem_of_mem_runs r hr)
  rw [encodeRle_eq hne, keepIfSmaller, hlen]
  split
  · rfl
  · rw [Option.map_some, hlen]

/-! ### The header of the bit-packed integer encodings -/

/-- `zigzag`. -/
def zigzag (x : Word) : Word := (x <<< 1) ^^^ x.sshiftRight 63

/-- `unzigzag`. -/
def unzigzag (z : Word) : Word := (z >>> 1) ^^^ (-(z &&& 1))

theorem getLsbD_zigzag (x : Word) {i : ℕ} (hi : i < 64) :
    (zigzag x).getLsbD i = ((decide (0 < i) && x.getLsbD (i - 1)) ^^ x.msb) := by
  have hsign : (x.sshiftRight 63).getLsbD i = x.msb := by
    rw [BitVec.getLsbD_sshiftRight]
    rcases Nat.eq_zero_or_pos i with rfl | hpos
    · simp [BitVec.msb_eq_getLsbD_last]
    · simp [hi, show ¬ 63 + i < 64 by omega]
  rw [zigzag, getLsbD_xor, hsign, BitVec.getLsbD_shiftLeft]
  rcases Nat.eq_zero_or_pos i with rfl | hpos
  · simp
  · simp [hi, hpos, show ¬ i < 1 by omega]

theorem unzigzag_zigzag (x : Word) : unzigzag (zigzag x) = x := by
  have hbit : (zigzag x) &&& 1 = if x.msb then 1 else 0 := by
    apply BitVec.eq_of_getLsbD_eq
    intro i hi
    rw [BitVec.getLsbD_and, getLsbD_zigzag x hi]
    rcases Nat.eq_zero_or_pos i with rfl | hpos
    · cases x.msb <;> simp
    · have : (1#64).getLsbD i = false := by simp [BitVec.getLsbD_one]; omega
      cases x.msb <;> simp [this]
  have hneg : ∀ i < 64, (-(zigzag x &&& 1) : Word).getLsbD i = x.msb := by
    intro i hi
    rw [hbit]
    cases x.msb with
    | false => simp
    | true =>
      rw [if_pos rfl, show (-1 : Word) = BitVec.allOnes 64 by decide, BitVec.getLsbD_allOnes]
      simpa using hi
  apply BitVec.eq_of_getLsbD_eq
  intro i hi
  rw [unzigzag, getLsbD_xor, BitVec.getLsbD_ushiftRight, hneg i hi]
  rcases Nat.lt_or_ge i 63 with h63 | h63
  · rw [getLsbD_zigzag x (by omega), show 1 + i - 1 = i by omega]
    cases x.msb <;> simp
  · obtain rfl : i = 63 := by omega
    have hm : x.getLsbD 63 = x.msb := by rw [BitVec.msb_eq_getLsbD_last]
    rw [hm, BitVec.getLsbD_of_ge _ _ (by norm_num)]
    cases x.msb <;> simp

/-- The fields behind the first `skip` values, which the header holds. -/
def unpackBehind (inp : List Byte) (skip n width : ℕ) : Except Fault (List Word) :=
  if skip < n then bitunpack inp (n - skip) width else .ok []

variable {width : ℕ}

theorem unpackBehind_bitpack {vals : List Word} {skip n : ℕ} (hw : width ≤ 64)
    (hv : ∀ v ∈ vals, v.toNat < 2 ^ width) (hn : vals.length = n - skip) :
    unpackBehind (bitpack vals width) skip n width = .ok vals := by
  have hunpack := bitunpack_bitpack vals hw hv []
  rw [append_nil, hn] at hunpack
  unfold unpackBehind
  split
  · exact hunpack
  · rw [eq_nil_of_length_eq_zero (show vals.length = 0 by omega)]

/-- The running maximum of the encoders, from `0`. -/
def maxWord (vals : List Word) : Word := vals.foldl (fun m v => if v > m then v else m) 0

theorem le_foldl_max {vals : List Word} {m : Word} :
    m ≤ vals.foldl (fun m v => if v > m then v else m) m ∧
      ∀ v ∈ vals, v ≤ vals.foldl (fun m v => if v > m then v else m) m := by
  induction vals generalizing m with
  | nil => exact ⟨le_refl m, by simp⟩
  | cons a vals ih =>
    rw [foldl_cons]
    have hm : m ≤ (if a > m then a else m) ∧ a ≤ (if a > m then a else m) := by
      split
      · next h => exact ⟨BitVec.le_of_lt h, le_refl a⟩
      · next h => exact ⟨le_refl m, BitVec.not_lt.mp h⟩
    obtain ⟨h1, h2⟩ := ih (m := if a > m then a else m)
    refine ⟨le_trans hm.1 h1, ?_⟩
    refine forall_mem_cons.mpr ⟨?_, h2⟩
    exact le_trans hm.2 h1

theorem toNat_lt_of_mem {vals : List Word} : ∀ v ∈ vals, v.toNat < 2 ^ bitsNeeded (maxWord vals) :=
  fun v hv => toNat_lt_two_pow_bitsNeeded (le_foldl_max.2 v hv)

/-- `[uint8 w][uint8 width][uint64 base]`. -/
def intHeader (w width : ℕ) (base : Word) : List Byte :=
  [BitVec.ofNat 8 w, BitVec.ofNat 8 width] ++ storeUint base 8

/-- The checks with which the FOR, DELTA and DOD decoders begin: the header is
complete, its width is a machine width, and it agrees with the declared length.
Returns the element width, the field width and the base. -/
def readIntHeader (name : String) (hdrLen : ℕ) (enc : List Byte) (n rawLen : ℕ) :
    Except Fault (ℕ × ℕ × Word) :=
  if enc.length < hdrLen then .error (.corrupt (name ++ " header truncated"))
  else do
    let w := (← readByte enc 0).toNat
    let width := (← readByte enc 1).toNat
    if ¬ IntWidth w then .error (.corrupt (name ++ " element width invalid"))
    else if n * w ≠ rawLen then .error (.corrupt (name ++ " raw length mismatch"))
    else
      let base ← readBytes enc 2 8
      return (w, width, loadUint base)

theorem length_intHeader (w width : ℕ) (base : Word) : (intHeader w width base).length = 10 := by
  simp [intHeader]

theorem readIntHeader_append {n hdrLen : ℕ} (name : String) (base : Word)
    (body : List Byte) (hw : IntWidth w) (hwidth : width ≤ 64)
    (hlen : hdrLen ≤ 10 + body.length) :
    readIntHeader name hdrLen (intHeader w width base ++ body) n (n * w) =
      .ok (w, width, base) := by
  have hle := hw.le
  have h0 : (intHeader w width base ++ body).getD 0 0 = BitVec.ofNat 8 w := rfl
  have h1 : (intHeader w width base ++ body).getD 1 0 = BitVec.ofNat 8 width := rfl
  have h2 : ((intHeader w width base ++ body).drop 2).take 8 = storeUint base 8 := by
    rw [intHeader, append_assoc, drop_left' (by rfl), take_left' (by simp)]
  have hl : (intHeader w width base ++ body).length = 10 + body.length := by
    rw [length_append, length_intHeader]
  have hwn : (BitVec.ofNat 8 w).toNat = w := by
    rw [toNat_ofNat, Nat.mod_eq_of_lt (by omega)]
  have hwidthn : (BitVec.ofNat 8 width).toNat = width := by
    rw [toNat_ofNat, Nat.mod_eq_of_lt (by omega)]
  unfold readIntHeader
  rw [if_neg (by omega), readByte_eq (by omega), readByte_eq (by omega), readBytes_eq (by omega),
    h0, h1, h2]
  simp only [bind, Except.bind, hwn, hwidthn, pure, Except.pure]
  rw [if_neg (by simpa using hw), if_neg (by simp), loadUint_storeUint_eight]

/-- Writing the loaded words back at the value width gives the stream. -/
theorem flatten_map_storeUint (hw8 : w ≤ 8) (hw : ∀ v ∈ vals, v.length = w) :
    ((vals.map loadUint).map fun v => storeUint v w).flatten = vals.flatten := by
  rw [map_map]
  congr 1
  conv_rhs => rw [← map_id vals]
  apply map_congr_left
  intro v hv
  have hlen := hw v hv
  rw [Function.comp_apply, ← hlen, storeUint_loadUint (by omega), id]

/-! ### FOR: frame of reference -/

/-- The running minimum of `encode_for`, from the first value. -/
def minWord (vals : List Word) : Word :=
  vals.tail.foldl (fun m v => if v < m then v else m) (vals.headD 0)

/-- `encode_for`. -/
def encodeFor (rawLen w : ℕ) (raw : List (List Byte)) : Option (List Byte) :=
  let vals := raw.map loadUint
  let minv := minWord vals
  let offs := vals.map (· - minv)
  let width := bitsNeeded (maxWord offs)
  keepIfSmaller rawLen (intHeader w width minv ++ bitpack offs width)

/-- `decode_for`. -/
def decodeFor (enc : List Byte) (n rawLen : ℕ) : Except Fault (List Byte) := do
  let (w, width, minv) ← readIntHeader "FOR" 10 enc n rawLen
  let vals ← bitunpack (enc.drop 10) n width
  return (vals.map fun v => storeUint (v + minv) w).flatten

variable {raw : List (List Byte)}

/-- **FOR round trip.** -/
theorem decodeFor_encodeFor (hw : IntWidth w) (hlen : ∀ v ∈ raw, v.length = w)
    (h : encodeFor rawLen w raw = some out) :
    decodeFor out raw.length (raw.length * w) = .ok raw.flatten := by
  obtain ⟨rfl, -⟩ := keepIfSmaller_eq_some h
  set vals := raw.map loadUint
  set minv := minWord vals
  set offs := vals.map (· - minv) with hoffs
  set width := bitsNeeded (maxWord offs)
  have hwidth : width ≤ 64 := bitsNeeded_le _
  have hunpack := bitunpack_bitpack offs hwidth toNat_lt_of_mem []
  have hn : offs.length = raw.length := by simp [hoffs, vals]
  rw [append_nil, hn] at hunpack
  have hback : (offs.map fun v => storeUint (v + minv) w) = vals.map fun v => storeUint v w := by
    rw [hoffs, map_map]
    apply map_congr_left
    intro v _
    rw [Function.comp_apply, sub_add_cancel]
  unfold decodeFor
  rw [readIntHeader_append "FOR" minv (bitpack offs width) hw hwidth (by omega)]
  simp only [bind, Except.bind, drop_left' (length_intHeader w width minv), hunpack, pure,
    Except.pure, hback]
  rw [flatten_map_storeUint hw.le hlen]

/-! ### DELTA -/

/-- `zigzag(value[i] - value[i-1])` along the stream. -/
def zigzagDeltas (prev : Word) : List Word → List Word
  | [] => []
  | v :: vs => zigzag (v - prev) :: zigzagDeltas v vs

/-- The values the decoder accumulates from the deltas. -/
def undelta (cur : Word) : List Word → List Word
  | [] => []
  | z :: zs => (cur + unzigzag z) :: undelta (cur + unzigzag z) zs

/-- `encode_delta`. -/
def encodeDelta (rawLen w : ℕ) (raw : List (List Byte)) : Option (List Byte) :=
  let vals := raw.map loadUint
  let base := vals.headD 0
  let deltas := zigzagDeltas base vals.tail
  let width := bitsNeeded (maxWord deltas)
  keepIfSmaller rawLen (intHeader w width base ++ bitpack deltas width)

/-- `decode_delta`. -/
def decodeDelta (enc : List Byte) (n rawLen : ℕ) : Except Fault (List Byte) := do
  let (w, width, base) ← readIntHeader "DELTA" 10 enc n rawLen
  let deltas ← unpackBehind (enc.drop 10) 1 n width
  let vals := if 0 < n then base :: undelta base deltas else []
  return (vals.map fun v => storeUint v w).flatten

theorem undelta_zigzagDeltas (prev : Word) (vals : List Word) :
    undelta prev (zigzagDeltas prev vals) = vals := by
  induction vals generalizing prev with
  | nil => rfl
  | cons v vals ih =>
    have hv : prev + unzigzag (zigzag (v - prev)) = v := by
      rw [unzigzag_zigzag, add_comm, sub_add_cancel]
    rw [zigzagDeltas, undelta, hv, ih]

@[simp] theorem length_zigzagDeltas (prev : Word) (vals : List Word) :
    (zigzagDeltas prev vals).length = vals.length := by
  induction vals generalizing prev with
  | nil => rfl
  | cons v vals ih => rw [zigzagDeltas, length_cons, ih, length_cons]

/-- **DELTA round trip.** -/
theorem decodeDelta_encodeDelta (hne : raw ≠ []) (hw : IntWidth w) (hlen : ∀ v ∈ raw, v.length = w)
    (h : encodeDelta rawLen w raw = some out) :
    decodeDelta out raw.length (raw.length * w) = .ok raw.flatten := by
  obtain ⟨rfl, -⟩ := keepIfSmaller_eq_some h
  obtain ⟨r, rs, rfl⟩ := exists_cons_of_ne_nil hne
  set base := loadUint r with hbase
  set deltas := zigzagDeltas base (rs.map loadUint) with hdeltas
  set width := bitsNeeded (maxWord deltas) with hwd
  have hwidth : width ≤ 64 := bitsNeeded_le _
  have hbody : unpackBehind (bitpack deltas width) 1 (r :: rs).length width = .ok deltas :=
    unpackBehind_bitpack hwidth toNat_lt_of_mem (by simp [hdeltas])
  unfold decodeDelta
  simp only [map_cons, headD_cons, tail_cons, ← hbase, ← hdeltas, ← hwd]
  rw [readIntHeader_append "DELTA" base (bitpack deltas width) hw hwidth (by omega)]
  simp only [bind, Except.bind, drop_left' (length_intHeader w width base), hbody, pure,
    Except.pure]
  rw [if_pos (by simp), hdeltas, undelta_zigzagDeltas, hbase, ← map_cons,
    flatten_map_storeUint hw.le hlen]

/-! ### DOD: delta of delta -/

/-- `zigzag` of the second differences, from the last value and the last difference. -/
def zigzagDods (prev delta : Word) : List Word → List Word
  | [] => []
  | v :: vs => zigzag ((v - prev) - delta) :: zigzagDods v (v - prev) vs

/-- The values the decoder accumulates from the second differences. -/
def undod (cur delta : Word) : List Word → List Word
  | [] => []
  | z :: zs =>
    (cur + (delta + unzigzag z)) :: undod (cur + (delta + unzigzag z)) (delta + unzigzag z) zs

/-- `encode_dod`. -/
def encodeDod (rawLen w : ℕ) (raw : List (List Byte)) : Option (List Byte) :=
  let vals := raw.map loadUint
  let base := vals.headD 0
  let second := vals.tail.headD 0
  let firstDelta := if 1 < vals.length then second - base else 0
  let dods := zigzagDods second firstDelta vals.tail.tail
  let width := bitsNeeded (maxWord dods)
  keepIfSmaller rawLen (intHeader w width base ++ (storeUint firstDelta 8 ++ bitpack dods width))

/-- `decode_dod`. -/
def decodeDod (enc : List Byte) (n rawLen : ℕ) : Except Fault (List Byte) := do
  let (w, width, base) ← readIntHeader "DOD" 18 enc n rawLen
  let firstDelta := loadUint (← readBytes enc 10 8)
  let dods ← unpackBehind (enc.drop 18) 2 n width
  let vals :=
    if n = 0 then []
    else if n = 1 then [base]
    else base :: (base + firstDelta) :: undod (base + firstDelta) firstDelta dods
  return (vals.map fun v => storeUint v w).flatten

theorem undod_zigzagDods (prev delta : Word) (vals : List Word) :
    undod prev delta (zigzagDods prev delta vals) = vals := by
  induction vals generalizing prev delta with
  | nil => rfl
  | cons v vals ih =>
    have hd : delta + unzigzag (zigzag ((v - prev) - delta)) = v - prev := by
      rw [unzigzag_zigzag, add_comm, sub_add_cancel]
    have hv : prev + (v - prev) = v := by rw [add_comm, sub_add_cancel]
    rw [zigzagDods, undod, hd, hv, ih]

@[simp] theorem length_zigzagDods (prev delta : Word) (vals : List Word) :
    (zigzagDods prev delta vals).length = vals.length := by
  induction vals generalizing prev delta with
  | nil => rfl
  | cons v vals ih => rw [zigzagDods, length_cons, ih, length_cons]

/-- The three header parts of a DOD body are read back. -/
theorem decodeDod_header {n : ℕ} {base firstDelta : Word} {dods : List Word}
    (hw : IntWidth w) (hwidth : width ≤ 64)
    (hfit : ∀ v ∈ dods, v.toNat < 2 ^ width) (hn : dods.length = n - 2) :
    decodeDod (intHeader w width base ++ (storeUint firstDelta 8 ++ bitpack dods width)) n (n * w) =
      .ok ((if n = 0 then []
        else if n = 1 then [base]
        else base :: (base + firstDelta) :: undod (base + firstDelta) firstDelta dods).map
          fun v => storeUint v w).flatten := by
  set body := storeUint firstDelta 8 ++ bitpack dods width with hbody
  have hdelta : readBytes (intHeader w width base ++ body) 10 8 = .ok (storeUint firstDelta 8) := by
    rw [readBytes_eq (by simp [length_intHeader, hbody]; omega),
      drop_left' (length_intHeader w width base), hbody, take_left' (by simp)]
  have hdrop : (intHeader w width base ++ body).drop 18 = bitpack dods width := by
    rw [hbody, ← append_assoc, drop_left' (by simp [length_intHeader])]
  have hdods := unpackBehind_bitpack hwidth hfit hn
  unfold decodeDod
  rw [readIntHeader_append "DOD" base body hw hwidth (by simp [hbody]; omega)]
  simp only [bind, Except.bind, hdelta, hdrop, hdods, loadUint_storeUint_eight, pure, Except.pure]

/-- **DOD round trip.** -/
theorem decodeDod_encodeDod (hne : raw ≠ []) (hw : IntWidth w) (hlen : ∀ v ∈ raw, v.length = w)
    (h : encodeDod rawLen w raw = some out) :
    decodeDod out raw.length (raw.length * w) = .ok raw.flatten := by
  obtain ⟨rfl, -⟩ := keepIfSmaller_eq_some h
  obtain ⟨r, rs, rfl⟩ := exists_cons_of_ne_nil hne
  rw [decodeDod_header hw (bitsNeeded_le _) toNat_lt_of_mem (by simp)]
  cases rs with
  | nil =>
    have := flatten_map_storeUint hw.le hlen
    simpa using this
  | cons s ss =>
    have hs : loadUint r + (loadUint s - loadUint r) = loadUint s := by
      rw [add_comm, sub_add_cancel]
    have := flatten_map_storeUint hw.le hlen
    simpa [hs, undod_zigzagDods] using this

end Encoding
end PgColumnar
