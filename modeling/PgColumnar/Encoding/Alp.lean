import PgColumnar.Encoding.Fixed

/-!
# ALP: decimal floats as integers, with exceptions

A float that is a decimal in disguise is stored as an integer under an exponent
and a factor; a float that does not reconstruct byte for byte is an exception,
stored verbatim with its position.  The decoder runs the arithmetic of the
encoder's own test, so a value that passed the test is reproduced whatever the
floating-point operations do.

## Main definitions

* `encodeAlp`, `decodeAlp` — the encoding; `alpChoose` picks the exponents.

## Main results

* `alpReconstruct_of_alpTry` — a value that is accepted is computed exactly.
* `decodeAlp_encodeAlp` — the round trip.
-/

namespace PgColumnar
namespace Encoding

open Bytes List

/-- `ALP_MAX_EXP`. -/
def alpMaxExp : ℕ := 18

/-- `alp_F10`. -/
def alpF10 : List Float :=
  [1e0, 1e1, 1e2, 1e3, 1e4, 1e5, 1e6, 1e7, 1e8, 1e9,
    1e10, 1e11, 1e12, 1e13, 1e14, 1e15, 1e16, 1e17, 1e18]

/-- `alp_IF10`. -/
def alpIF10 : List Float :=
  [1e0, 1e-1, 1e-2, 1e-3, 1e-4, 1e-5, 1e-6, 1e-7, 1e-8, 1e-9,
    1e-10, 1e-11, 1e-12, 1e-13, 1e-14, 1e-15, 1e-16, 1e-17, 1e-18]

/-- The double a value of width `w` (float4 or float8) stands for. -/
def alpLoad (vp : List Byte) (w : ℕ) : Float :=
  if w = 8 then Float.ofBits (UInt64.ofNat (leNat vp))
  else (Float32.ofBits (UInt32.ofNat (leNat vp))).toFloat

/-- The bytes decode writes for the integer `v` under `(e, f)`. -/
def alpReconstruct (v : Word) (w e f : ℕ) : List Byte :=
  let r := (Int64.ofBitVec v).toFloat * alpF10.getD f 0 * alpIF10.getD e 0
  if w = 8 then leBytes 8 r.toBits.toNat else leBytes 4 r.toFloat32.toBits.toNat

/-- `alp_try`: the integer of a value that reconstructs byte for byte. -/
def alpTry (vp : List Byte) (w e f : ℕ) : Option Word :=
  let d := alpLoad vp w
  if d.isFinite then
    let scaled := d * alpF10.getD e 0 * alpIF10.getD f 0
    if scaled ≥ 9.0e18 ∨ scaled ≤ -9.0e18 then none
    else
      -- `llround`: to nearest, halves away from zero
      let enc := scaled.round.toInt64.toBitVec
      if alpReconstruct enc w e f = vp then some enc else none
  else none

variable {w : ℕ}

/-- **A value that `alp_try` accepts is exactly what decode computes from its integer.** -/
theorem alpReconstruct_of_alpTry {vp : List Byte} {e f : ℕ} {enc : Word}
    (h : alpTry vp w e f = some enc) : alpReconstruct enc w e f = vp := by
  unfold alpTry at h
  dsimp only at h
  split_ifs at h with h1 h2 h3
  obtain rfl := Option.some.inj h
  exact h3

/-! ### Choice of the exponent and the factor -/

/-- The counters of one `(e, f)` trial over the sample. -/
structure AlpTrial where
  sEnc : ℕ := 0
  sExc : ℕ := 0
  mn : Word := 0
  mx : Word := 0

/-- One sampled value under the trial. -/
def AlpTrial.add (t : AlpTrial) : Option Word → AlpTrial
  | none => { t with sExc := t.sExc + 1 }
  | some enc =>
    if t.sEnc = 0 then { t with sEnc := 1, mn := enc, mx := enc }
    else
      { t with
        sEnc := t.sEnc + 1
        mn := if enc.slt t.mn then enc else t.mn
        mx := if t.mx.slt enc then enc else t.mx }

/-- The estimated bytes of a trial over the whole vector. -/
def AlpTrial.cost (t : AlpTrial) (n w : ℕ) : Float :=
  n.toFloat * (bitsNeeded (t.mx - t.mn)).toFloat / 8.0 +
    t.sExc.toFloat / (t.sEnc + t.sExc).toFloat * n.toFloat * (4 + w).toFloat

/-- The best cost so far, negative before any, with its exponent and factor. -/
structure AlpBest where
  cost : Float
  e : ℕ
  f : ℕ

/-- The pairs `(e, f)` in the order of the two loops. -/
def alpPairs : List (ℕ × ℕ) :=
  (List.range (alpMaxExp + 1)).flatMap fun e => (List.range (e + 1)).map fun f => (e, f)

/-- Every `step`-th value, `step` being `n / 64` and at least one. -/
def alpSample (raw : List (List Byte)) : List (List Byte) :=
  let n := raw.length
  let sample := if n < 64 then n else 64
  let step := max 1 (if 0 < sample then n / sample else 1)
  (List.range ((n + step - 1) / step)).map fun i => raw.getD (i * step) []

/-- One pair of the search loop. -/
def alpConsider (sample : List (List Byte)) (n w : ℕ) (best : AlpBest) (p : ℕ × ℕ) : AlpBest :=
  let t : AlpTrial := sample.foldl (fun t v => t.add (alpTry v w p.1 p.2)) {}
  if t.sEnc = 0 then best
  else
    let cost := t.cost n w
    if best.cost < 0 ∨ cost < best.cost then ⟨cost, p.1, p.2⟩ else best

/-- The search loop of `encode_alp`. -/
def alpChoose (raw : List (List Byte)) (w : ℕ) : AlpBest :=
  alpPairs.foldl (alpConsider (alpSample raw) raw.length w) ⟨-1, 0, 0⟩

/-- The chosen pair is one the decoder accepts. -/
theorem alpChoose_le (raw : List (List Byte)) (w : ℕ) :
    (alpChoose raw w).e ≤ alpMaxExp ∧ (alpChoose raw w).f ≤ (alpChoose raw w).e := by
  have hfold : ∀ (ps : List (ℕ × ℕ)) (best : AlpBest),
      (∀ p ∈ ps, p.1 ≤ alpMaxExp ∧ p.2 ≤ p.1) → best.e ≤ alpMaxExp ∧ best.f ≤ best.e →
      (ps.foldl (alpConsider (alpSample raw) raw.length w) best).e ≤ alpMaxExp ∧
        (ps.foldl (alpConsider (alpSample raw) raw.length w) best).f ≤
          (ps.foldl (alpConsider (alpSample raw) raw.length w) best).e := by
    intro ps
    induction ps with
    | nil => exact fun best _ h => h
    | cons p ps ih =>
      intro best hps hbest
      rw [foldl_cons]
      apply ih _ fun q hq => hps q (mem_cons_of_mem p hq)
      unfold alpConsider
      dsimp only
      split_ifs
      · exact hbest
      · exact hps p mem_cons_self
      · exact hbest
  apply hfold
  · intro p hp
    simp only [alpPairs, mem_flatMap, mem_range, mem_map] at hp
    obtain ⟨e, he, f, hf, rfl⟩ := hp
    exact ⟨by omega, by dsimp only; omega⟩
  · exact ⟨by decide, by decide⟩

/-! ### Encoder and decoder -/

/-- The frame of reference: the least (signed) encoded integer. -/
def alpForBase (encs : List (Option Word)) : Word :=
  match encs.reduceOption with
  | [] => 0
  | v :: vs => vs.foldl (fun m v => if v.slt m then v else m) v

/-- The values stored verbatim, with their positions. -/
def alpExceptions (raw : List (List Byte)) (w e f : ℕ) : List (List Byte × ℕ) :=
  raw.zipIdx.filter fun p => (alpTry p.1 w e f).isNone

/-- One exception record. -/
def alpExceptionBytes (p : List Byte × ℕ) : List Byte := leBytes 4 p.2 ++ p.1

/-- The body of `encode_alp` once the pair is chosen. -/
def alpBody (raw : List (List Byte)) (w e f : ℕ) : List Byte :=
  let encs := raw.map fun v => alpTry v w e f
  let base := alpForBase encs
  -- exception positions carry offset 0
  let offs := encs.map fun o => o.elim 0 (· - base)
  let intWidth := bitsNeeded (maxWord offs)
  let exc := alpExceptions raw w e f
  [BitVec.ofNat 8 e, BitVec.ofNat 8 f, BitVec.ofNat 8 intWidth, 0] ++
    (storeUint base 8 ++ (leBytes 4 exc.length ++
      (bitpack offs intWidth ++ exc.flatMap alpExceptionBytes)))

/-- `encode_alp`. -/
def encodeAlp (rawLen w : ℕ) (raw : List (List Byte)) : Option (List Byte) :=
  let best := alpChoose raw w
  if best.cost < 0 then none
  else if raw.all fun v => (alpTry v w best.e best.f).isNone then none
  else keepIfSmaller rawLen (alpBody raw w best.e best.f)

/-- The exception loop of `decode_alp` on the bytes from `p` to `end`. -/
def alpPatch (w n : ℕ) : ℕ → List Byte → List (List Byte) → Except Fault (List (List Byte))
  | 0, _, vals => .ok vals
  | k + 1, p, vals =>
    if p.length < 4 + w then .error (.corrupt "ALP exception past encoded length")
    else do
      let pos := leNat (← readBytes p 0 4)
      let p := p.drop 4
      if n ≤ pos then .error (.corrupt "ALP exception position out of range")
      else
        let v ← readBytes p 0 w
        alpPatch w n k (p.drop w) (vals.set pos v)

/-- `decode_alp`. -/
def decodeAlp (enc : List Byte) (w n rawLen : ℕ) : Except Fault (List Byte) :=
  if w ≠ 4 ∧ w ≠ 8 then .error (.corrupt "ALP on a non-float column")
  else if n * w ≠ rawLen then .error (.corrupt "ALP raw length does not match value count")
  else if enc.length < 16 then .error (.corrupt "ALP header truncated")
  else do
    let e := (← readByte enc 0).toNat
    let f := (← readByte enc 1).toNat
    let intWidth := (← readByte enc 2).toNat
    let base := loadUint (← readBytes enc 4 8)
    let nExc := leNat (← readBytes enc 12 4)
    let p := enc.drop 16
    if alpMaxExp < e ∨ e < f then .error (.corrupt "ALP exponent out of range")
    else if 64 < intWidth then .error (.corrupt "ALP bit width out of range")
    else
      let packedBytes := (n * intWidth + 7) / 8
      if p.length < packedBytes then .error (.corrupt "ALP offsets past encoded length")
      else
        let offs ← bitunpack p n intWidth
        let vals := offs.map fun o => alpReconstruct (base + o) w e f
        let vals ← alpPatch w n nExc (p.drop packedBytes) vals
        return vals.flatten

/-- Patching with records of the original values makes the list agree with the
original wherever it agreed before or a record says so. -/
theorem alpPatch_records {raw : List (List Byte)} (hn : raw.length < 2 ^ 32)
    {exc : List (List Byte × ℕ)} (hexc : ∀ p ∈ exc, raw[p.2]? = some p.1)
    (hw : ∀ p ∈ exc, p.1.length = w) {vals : List (List Byte)} (hlen : vals.length = raw.length)
    (hagree : ∀ i < raw.length, (∀ p ∈ exc, p.2 ≠ i) → vals[i]? = raw[i]?) :
    alpPatch w raw.length exc.length (exc.flatMap alpExceptionBytes) vals = .ok raw := by
  induction exc generalizing vals with
  | nil =>
    rw [length_nil, alpPatch]
    congr 1
    apply ext_getElem?
    intro i
    rcases Nat.lt_or_ge i raw.length with hi | hi
    · exact hagree i hi (by simp)
    · rw [getElem?_eq_none hi, getElem?_eq_none (by omega)]
  | cons p exc ih =>
    obtain ⟨v, pos⟩ := p
    have hraw : raw[pos]? = some v := hexc (v, pos) mem_cons_self
    have hpos : pos < raw.length := (List.getElem?_eq_some_iff.mp hraw).1
    have hv : v.length = w := hw (v, pos) mem_cons_self
    have hnum : leNat (leBytes 4 pos) = pos :=
      leNat_leBytes_of_lt ((Nat.lt_trans hpos hn).trans_le (by norm_num))
    set tail := exc.flatMap alpExceptionBytes with htail
    have hbytes : (((v, pos) :: exc).flatMap alpExceptionBytes) = leBytes 4 pos ++ (v ++ tail) := by
      rw [flatMap_cons, alpExceptionBytes, append_assoc]
    have hhdr := readBytes_append (leBytes 4 pos) (v ++ tail)
    have hval := readBytes_append v tail
    rw [length_leBytes] at hhdr
    rw [hv] at hval
    have hdrop : (leBytes 4 pos ++ (v ++ tail)).drop 4 = v ++ tail := drop_left' (by simp)
    have hdrop' : (v ++ tail).drop w = tail := drop_left' hv
    have hlen' : (vals.set pos v).length = raw.length := by rw [length_set, hlen]
    have hagree' : ∀ i < raw.length, (∀ p ∈ exc, p.2 ≠ i) → (vals.set pos v)[i]? = raw[i]? := by
      intro i hi hne
      by_cases hip : pos = i
      · subst hip
        rw [getElem?_set_self (by omega), hraw]
      · rw [getElem?_set_ne hip]
        refine hagree i hi ?_
        refine forall_mem_cons.mpr ⟨?_, hne⟩
        exact hip
    have hrest := ih (fun p hp => hexc p (mem_cons_of_mem _ hp))
      (fun p hp => hw p (mem_cons_of_mem _ hp)) hlen' hagree'
    rw [hbytes, length_cons, alpPatch, if_neg (by simp [hv])]
    simp only [hhdr, bind, Except.bind, hdrop, hnum, hval, hdrop', hrest]
    rw [if_neg (by omega)]

/-- The header fields of an ALP body are read back. -/
theorem decodeAlp_header {n e f intWidth nExc : ℕ} {base : Word} {p : List Byte}
    (hw : w = 4 ∨ w = 8) (he : e ≤ alpMaxExp) (hf : f ≤ e) (hwidth : intWidth ≤ 64)
    (hexc : nExc < 2 ^ 32) (hp : (n * intWidth + 7) / 8 ≤ p.length) :
    decodeAlp ([BitVec.ofNat 8 e, BitVec.ofNat 8 f, BitVec.ofNat 8 intWidth, 0] ++
        (storeUint base 8 ++ (leBytes 4 nExc ++ p))) w n (n * w) =
      (do
        let offs ← bitunpack p n intWidth
        let vals ← alpPatch w n nExc (p.drop ((n * intWidth + 7) / 8))
          (offs.map fun o => alpReconstruct (base + o) w e f)
        return vals.flatten) := by
  have he18 : e ≤ 18 := he
  set hdr : List Byte := [BitVec.ofNat 8 e, BitVec.ofNat 8 f, BitVec.ofNat 8 intWidth, 0]
  set enc := hdr ++ (storeUint base 8 ++ (leBytes 4 nExc ++ p)) with henc
  have hlen : enc.length = 16 + p.length := by
    simp only [henc, hdr, length_append, length_cons, length_nil, length_storeUint, length_leBytes]
    omega
  have h0 : enc.getD 0 0 = BitVec.ofNat 8 e := rfl
  have h1 : enc.getD 1 0 = BitVec.ofNat 8 f := rfl
  have h2 : enc.getD 2 0 = BitVec.ofNat 8 intWidth := rfl
  have hbase : (enc.drop 4).take 8 = storeUint base 8 := by
    rw [henc, drop_left' (by rfl), take_left' (by simp)]
  have hcount : (enc.drop 12).take 4 = leBytes 4 nExc := by
    rw [henc, ← append_assoc, drop_left' (by simp [hdr]), take_left' (by simp)]
  have hrest : enc.drop 16 = p := by
    rw [henc, ← append_assoc, ← append_assoc, drop_left' (by simp [hdr])]
  have hen : (BitVec.ofNat 8 e).toNat = e := by
    rw [BitVec.toNat_ofNat, Nat.mod_eq_of_lt (by omega)]
  have hfn : (BitVec.ofNat 8 f).toNat = f := by
    rw [BitVec.toNat_ofNat, Nat.mod_eq_of_lt (by omega)]
  have hwn : (BitVec.ofNat 8 intWidth).toNat = intWidth := by
    rw [BitVec.toNat_ofNat, Nat.mod_eq_of_lt (by omega)]
  have hnn : leNat (leBytes 4 nExc) = nExc :=
    leNat_leBytes_of_lt (hexc.trans_le (by norm_num))
  unfold decodeAlp
  rw [if_neg (by omega), if_neg (by simp), if_neg (by omega), readByte_eq (by omega),
    readByte_eq (by omega), readByte_eq (by omega), readBytes_eq (by omega),
    readBytes_eq (by omega), h0, h1, h2, hbase, hcount, hrest]
  simp only [bind, Except.bind, hen, hfn, hwn, hnn, loadUint_storeUint_eight]
  rw [if_neg (by omega), if_neg (by omega), if_neg (by omega)]

/-- **ALP round trip.** -/
theorem decodeAlp_encodeAlp {raw : List (List Byte)} {rawLen : ℕ} {out : List Byte}
    (hw : w = 4 ∨ w = 8) (hlen : ∀ v ∈ raw, v.length = w) (hn : raw.length < 2 ^ 32)
    (h : encodeAlp rawLen w raw = some out) :
    decodeAlp out w raw.length (raw.length * w) = .ok raw.flatten := by
  unfold encodeAlp at h
  dsimp only at h
  split_ifs at h
  obtain ⟨rfl, -⟩ := keepIfSmaller_eq_some h
  obtain ⟨he, hf⟩ := alpChoose_le raw w
  set e := (alpChoose raw w).e
  set f := (alpChoose raw w).f
  unfold alpBody
  dsimp only
  set encs := raw.map fun v => alpTry v w e f with hencs
  set base := alpForBase encs
  set offs := encs.map fun o => o.elim 0 (· - base) with hoffs
  set intWidth := bitsNeeded (maxWord offs)
  set exc := alpExceptions raw w e f with hexc
  have hmem : ∀ p ∈ exc, raw[p.2]? = some p.1 := by
    intro p hp
    exact mem_zipIdx_iff_getElem?.mp (mem_of_mem_filter hp)
  have hexcw : ∀ p ∈ exc, p.1.length = w := fun p hp =>
    hlen _ (mem_of_getElem? (hmem p hp))
  have hexcn : exc.length < 2 ^ 32 := by
    have : exc.length ≤ raw.zipIdx.length := length_filter_le _ _
    rw [length_zipIdx] at this
    omega
  have hwidth : intWidth ≤ 64 := bitsNeeded_le _
  have hoffn : offs.length = raw.length := by simp [hoffs, hencs]
  have hunpack := bitunpack_bitpack offs hwidth toNat_lt_of_mem (exc.flatMap alpExceptionBytes)
  have hpacked := length_bitpack offs intWidth
  rw [hoffn] at hunpack hpacked
  rw [decodeAlp_header hw he hf hwidth hexcn (by rw [length_append, hpacked]; omega)]
  simp only [hunpack, bind, Except.bind, drop_left' hpacked]
  rw [alpPatch_records hn hmem hexcw (by rw [length_map, hoffn])]
  · rfl
  · -- a value that is no exception was accepted by `alp_try`
    intro i hi hnot
    have hv : raw[i]? = some raw[i] := getElem?_eq_getElem hi
    cases htry : alpTry raw[i] w e f with
    | none =>
      have hin : (raw[i], i) ∈ exc := by
        rw [hexc, alpExceptions, mem_filter]
        exact ⟨mem_zipIdx_iff_getElem?.mpr hv, by simp [htry]⟩
      exact absurd rfl (hnot _ hin)
    | some enc =>
      rw [hoffs, hencs, getElem?_map, getElem?_map, getElem?_map, hv]
      simp only [Option.map_some, htry, Option.elim_some]
      rw [BitVec.add_comm, BitVec.sub_add_cancel, alpReconstruct_of_alpTry htry]

end Encoding
end PgColumnar
