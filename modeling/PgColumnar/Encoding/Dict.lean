import PgColumnar.Encoding.Fixed
import PgColumnar.Lib.Probe

/-!
# DICT: distinct values and bit-packed codes

`encode_dict` finds the code of each value through an open-addressing hash of at
most 1024 distinct values over 2048 slots.  The hash build is compared with
`linearCodes`, which searches the dictionary from the front: both assign codes in
first-seen order and give up on the same streams.

## Main definitions

* `dictLoop` — the build with its hash table; `linearCodes` searches from the front.

## Main results

* `dictLoop_eq` — both give the same dictionary.
* `decodeDict_encodeDict` — the round trip.
-/

namespace PgColumnar
namespace Encoding

open Bytes Probe List
open Nat (mod_lt mod_eq_of_lt)

/-- `DICT_MAX_DISTINCT`. -/
def dictMaxDistinct : ℕ := 1024

/-- `DICT_HASH_SLOTS`. -/
def dictHashSlots : ℕ := 2048

/-- `pgcolumnar_fnv1a`. -/
def fnv1a (bs : List Byte) : Word :=
  bs.foldl (fun h b => (h ^^^ b.setWidth 64) * 1099511628211) 1469598103934665603

/-- The slot at which the probe for a value starts. -/
def dictHash (v : List Byte) : ℕ := (fnv1a v).toNat % dictHashSlots

/-- The hash slots (`code` of the value, or empty) and the distinct values so far. -/
structure DictState where
  hslot : List (Option ℕ)
  dist : List (List Byte)

/-- The empty dictionary. -/
def DictState.init : DictState := ⟨List.replicate dictHashSlots none, []⟩

/-- One value of the build: its code and the state behind it, or `none` when the
dictionary is full. -/
def dictCode (st : DictState) (v : List Byte) : Except Fault (Option (DictState × ℕ)) :=
  match probe st.hslot (fun j => st.dist.getD j [] == v) dictHashSlots (dictHash v) with
  | .hit _ j => .ok (some (st, j))
  | .empty s =>
    if dictMaxDistinct ≤ st.dist.length then .ok none
    else .ok (some (⟨st.hslot.set s (some st.dist.length), st.dist ++ [v]⟩, st.dist.length))
  | .exhausted => .error .diverges

/-- The build loop: the dictionary and the code of every value. -/
def dictLoop (st : DictState) : List (List Byte) →
    Except Fault (Option (List (List Byte) × List ℕ))
  | [] => .ok (some (st.dist, []))
  | v :: vs => do
    match ← dictCode st v with
    | none => return none
    | some (st', c) =>
      match ← dictLoop st' vs with
      | none => return none
      | some (dist, cs) => return some (dist, c :: cs)

/-- One dictionary entry on disk. -/
def dictEntryBytes (att : Attribute) (v : List Byte) : List Byte :=
  if 0 < att.attlen then v else leBytes 4 v.length ++ v

/-- The bytes of a dictionary and its codes. -/
def dictBody (att : Attribute) (dist : List (List Byte)) (codes : List ℕ) : List Byte :=
  let codeWidth := bitsNeeded (BitVec.ofNat 64 (dist.length - 1))
  leBytes 4 dist.length ++ (dist.flatMap (dictEntryBytes att) ++
    (BitVec.ofNat 8 codeWidth :: bitpack (codes.map (BitVec.ofNat 64)) codeWidth))

/-- `encode_dict`. -/
def encodeDict (att : Attribute) (rawLen : ℕ) (vals : List (List Byte)) :
    Except Fault (Option (List Byte)) := do
  match ← dictLoop .init vals with
  | none => return none
  | some (dist, codes) => return keepIfSmaller rawLen (dictBody att dist codes)

/-- The entry loop of `decode_dict`: `k` entries, and the bytes behind them. -/
def dictEntries (att : Attribute) : ℕ → List Byte →
    Except Fault (List (List Byte) × List Byte)
  | 0, p => .ok ([], p)
  | k + 1, p => do
    let w := att.attlen.toNat
    if 0 < att.attlen then
      if p.length < w then .error (.corrupt "DICT fixed entry past encoded length")
      else
        let v ← readBytes p 0 w
        let (vs, q) ← dictEntries att k (p.drop w)
        return (v :: vs, q)
    else if p.length < 4 then .error (.corrupt "DICT varlen header past encoded length")
    else
      let len := leNat (← readBytes p 0 4)
      let p := p.drop 4
      if p.length < len then .error (.corrupt "DICT varlen entry past encoded length")
      else
        let v ← readBytes p 0 len
        let (vs, q) ← dictEntries att k (p.drop len)
        return (v :: vs, q)

/-- The output loop of `decode_dict` from output position `pos`. -/
def dictEmit (dict : List (List Byte)) (rawLen : ℕ) : ℕ → List Word → Except Fault (List Byte)
  | pos, [] =>
    if pos ≠ rawLen then .error (.corrupt "DICT output length does not match raw length")
    else .ok []
  | pos, c :: cs =>
    let code := c.toNat % 2 ^ 32
    if dict.length ≤ code then .error (.corrupt "DICT code out of range")
    else
      let v := dict.getD code []
      if rawLen - pos < v.length then .error (.corrupt "DICT output exceeds raw length")
      else do
        let rest ← dictEmit dict rawLen (pos + v.length) cs
        return v ++ rest

/-- `decode_dict`. -/
def decodeDict (att : Attribute) (enc : List Byte) (n rawLen : ℕ) : Except Fault (List Byte) :=
  if enc.length < 4 then .error (.corrupt "DICT header truncated")
  else do
    let nd := leNat (← readBytes enc 0 4)
    let (dict, p) ← dictEntries att nd (enc.drop 4)
    if p.length < 1 then .error (.corrupt "DICT code width past encoded length")
    else
      let codeWidth := (← readByte p 0).toNat
      let codes ← bitunpack (p.drop 1) n codeWidth
      dictEmit dict rawLen 0 codes

/-! ### The hash build is the linear build -/

/-- The dictionary and codes a linear search from the front builds. -/
def linearCodes (dist : List (List Byte)) : List (List Byte) →
    Option (List (List Byte) × List ℕ)
  | [] => some (dist, [])
  | v :: vs =>
    if v ∈ dist then (linearCodes dist vs).map fun r => (r.1, dist.idxOf v :: r.2)
    else if dictMaxDistinct ≤ dist.length then none
    else (linearCodes (dist ++ [v]) vs).map fun r => (r.1, dist.length :: r.2)

/-- The invariant of the build: every code is in the table once, reachable from the
slot of its value, and the values are distinct. -/
structure DictState.Inv (st : DictState) : Prop where
  slots : st.hslot.length = dictHashSlots
  used : st.hslot.countP Option.isSome = st.dist.length
  bound : st.dist.length ≤ dictMaxDistinct
  nodup : st.dist.Nodup
  stored : ∀ j, some j ∈ st.hslot ↔ j < st.dist.length
  chained : Chained st.hslot fun j => dictHash (st.dist.getD j [])

theorem DictState.inv_init : DictState.init.Inv where
  slots := length_replicate
  used := by simp [DictState.init, countP_replicate]
  bound := Nat.zero_le _
  nodup := nodup_nil
  stored := by
    intro j
    simp [DictState.init, mem_replicate]
  chained := chained_replicate_none _ _

theorem dictHash_lt (v : List Byte) : dictHash v < dictHashSlots := mod_lt _ (by decide)

variable {st : DictState} {v : List Byte}

/-- The probe for a known value ends at its code. -/
theorem dictCode_of_mem (h : st.Inv) (hv : v ∈ st.dist) :
    dictCode st v = .ok (some (st, st.dist.idxOf v)) := by
  have hidx : st.dist.idxOf v < st.dist.length := idxOf_lt_length_of_mem hv
  have hget : st.dist.getD (st.dist.idxOf v) [] = v := by
    rw [getD_eq_getElem _ _ hidx, getElem_idxOf hidx]
  obtain ⟨e, j, hj⟩ := exists_probe_hit (p := fun j => st.dist.getD j [] == v) h.chained
    ((h.stored _).mpr hidx) (by rw [h.slots]; exact dictHash_lt _)
    (by rw [hget]; simp)
  rw [hget, h.slots] at hj
  -- the entry found is the only one that equals the value
  obtain ⟨hpj, hmemj⟩ := probe_hit (by rw [h.slots]; exact dictHash_lt v) hj
  have hjlt := (h.stored j).mp hmemj
  have hjv : st.dist[j] = v := by
    rw [← getD_eq_getElem _ [] hjlt]
    exact eq_of_beq hpj
  have hsame : st.dist[j] = st.dist[st.dist.idxOf v] := by rw [hjv, getElem_idxOf hidx]
  have hji : j = st.dist.idxOf v := h.nodup.getElem_inj_iff.mp hsame
  rw [dictCode, hj, hji]

/-- The probe for a new value ends at an empty slot. -/
theorem exists_empty_of_not_mem (h : st.Inv) (hv : v ∉ st.dist) :
    ∃ s, probe st.hslot (fun j => st.dist.getD j [] == v) dictHashSlots (dictHash v) =
      .empty s := by
  have hstart : dictHash v < st.hslot.length := by rw [h.slots]; exact dictHash_lt v
  have hroom : st.hslot.countP Option.isSome < st.hslot.length := by
    rw [h.used, h.slots]
    exact lt_of_le_of_lt h.bound (by decide)
  obtain ⟨e, he, hempty⟩ := exists_empty hroom
  have hstop := probe_ne_exhausted (p := fun j => st.dist.getD j [] == v) hstart he hempty
  rw [h.slots] at hstop
  cases hp : probe st.hslot (fun j => st.dist.getD j [] == v) dictHashSlots (dictHash v) with
  | hit e j =>
    obtain ⟨hpj, hmemj⟩ := probe_hit hstart hp
    have hjlt := (h.stored j).mp hmemj
    have hjv : st.dist[j] = v := by
      rw [← getD_eq_getElem _ [] hjlt]
      exact eq_of_beq hpj
    exact absurd (hjv ▸ getElem_mem hjlt) hv
  | empty s => exact ⟨s, rfl⟩
  | exhausted => exact absurd hp hstop

/-- Storing a new value keeps the invariant. -/
theorem DictState.Inv.insert (h : st.Inv) (hv : v ∉ st.dist)
    (hroom : st.dist.length < dictMaxDistinct) {s : ℕ}
    (hs : probe st.hslot (fun j => st.dist.getD j [] == v) dictHashSlots (dictHash v) = .empty s) :
    DictState.Inv ⟨st.hslot.set s (some st.dist.length), st.dist ++ [v]⟩ := by
  have hstart : dictHash v < st.hslot.length := by rw [h.slots]; exact dictHash_lt v
  obtain ⟨hslt, hsempty⟩ := probe_empty hstart hs
  have hold : ∀ j < st.dist.length, (st.dist ++ [v]).getD j [] = st.dist.getD j [] := by
    intro j hj
    rw [getD_append _ _ _ _ hj]
  have hnew : (st.dist ++ [v]).getD st.dist.length [] = v := by
    rw [getD_append_right _ _ _ _ (le_refl _)]
    simp
  constructor
  · rw [length_set, h.slots]
  · rw [countP_set_of_empty hslt hsempty, h.used, length_append, length_singleton]
  · rw [length_append, length_singleton]
    omega
  · rw [nodup_append]
    refine ⟨h.nodup, nodup_singleton v, ?_⟩
    intro a ha b hb
    rw [mem_singleton] at hb
    subst hb
    exact fun hab => hv (hab ▸ ha)
  · intro j
    rw [length_append, length_singleton]
    constructor
    · intro hj
      rcases mem_or_eq_of_mem_set hj with hj | hj
      · have := (h.stored j).mp hj
        omega
      · have := Option.some.inj hj
        omega
    · intro hj
      rcases lt_or_ge j st.dist.length with hlt | hge
      · -- an old code is not at the empty slot that is overwritten
        obtain ⟨k, hk, hkj⟩ := getElem_of_mem ((h.stored j).mpr hlt)
        have hne : s ≠ k := by
          rintro rfl
          rw [getD_eq_getElem _ _ hk, hkj] at hsempty
          exact absurd hsempty (by simp)
        rw [mem_iff_getElem?]
        exact ⟨k, by rw [getElem?_set_ne hne, getElem?_eq_getElem hk, hkj]⟩
      · obtain rfl : j = st.dist.length := by omega
        exact mem_set hslt _
  · have hchain : Chained st.hslot fun j => dictHash ((st.dist ++ [v]).getD j []) := by
      refine h.chained.congr ?_
      intro j hj
      rw [hold j ((h.stored j).mp hj)]
    refine hchain.set (p := fun j => st.dist.getD j [] == v) ?_ ?_
    · rw [hnew]
      exact hstart
    · rw [hnew, h.slots]
      exact hs

/-- **The hash build is the linear build**: same dictionary, same codes, same failures,
and no probe runs forever. -/
theorem dictLoop_eq (h : st.Inv) (vals : List (List Byte)) :
    dictLoop st vals = .ok (linearCodes st.dist vals) := by
  induction vals generalizing st with
  | nil => rfl
  | cons v vs ih =>
    rw [dictLoop, linearCodes]
    by_cases hv : v ∈ st.dist
    · rw [dictCode_of_mem h hv, if_pos hv]
      simp only [bind, Except.bind, ih h, pure, Except.pure]
      cases linearCodes st.dist vs <;> rfl
    · obtain ⟨s, hs⟩ := exists_empty_of_not_mem h hv
      rw [dictCode, hs, if_neg hv]
      by_cases hfull : dictMaxDistinct ≤ st.dist.length
      · simp only [if_pos hfull, bind, Except.bind, pure, Except.pure]
      · have hins := h.insert hv (by omega) hs
        simp only [if_neg hfull, bind, Except.bind, ih hins, pure, Except.pure]
        cases linearCodes (st.dist ++ [v]) vs <;> rfl

/-! ### What the linear build computes -/

/-- A dictionary and codes that stand for a list of values. -/
def CodesFor (dist : List (List Byte)) (codes : List ℕ) (vals : List (List Byte)) : Prop :=
  codes.map (fun c => dist[c]?) = vals.map some

variable {dist vals : List (List Byte)} {codes : List ℕ}

theorem CodesFor.cons {c : ℕ} (hc : dist[c]? = some v) (h : CodesFor dist codes vals) :
    CodesFor dist (c :: codes) (v :: vals) := by
  unfold CodesFor at *
  rw [map_cons, map_cons, hc, h]

theorem CodesFor.length (h : CodesFor dist codes vals) : codes.length = vals.length := by
  have := congrArg List.length h
  simpa using this

/-- **The linear build succeeds exactly when the distinct values fit**; it then has one
entry per distinct value, extends the dictionary it started from, and gives every
value its code. -/
theorem linearCodes_spec (dist vals : List (List Byte)) (hnodup : dist.Nodup)
    (hbound : dist.length ≤ dictMaxDistinct) :
    match linearCodes dist vals with
    | none => dictMaxDistinct < (dist ++ vals).toFinset.card
    | some (d, codes) => d.Nodup ∧ d.toFinset = (dist ++ vals).toFinset ∧
        d.length ≤ dictMaxDistinct ∧ dist <+: d ∧ CodesFor d codes vals := by
  induction vals generalizing dist with
  | nil =>
    rw [linearCodes]
    exact ⟨hnodup, by rw [append_nil], hbound, prefix_refl dist, rfl⟩
  | cons v vs ih =>
    rw [linearCodes]
    by_cases hv : v ∈ dist
    · have hset : (dist ++ v :: vs).toFinset = (dist ++ vs).toFinset := by
        ext u
        simp only [mem_toFinset, mem_append, mem_cons]
        constructor
        · rintro (hu | rfl | hu)
          · exact Or.inl hu
          · exact Or.inl hv
          · exact Or.inr hu
        · rintro (hu | hu)
          · exact Or.inl hu
          · exact Or.inr (Or.inr hu)
      have hih := ih dist hnodup hbound
      rw [if_pos hv, hset]
      revert hih
      cases linearCodes dist vs with
      | none => exact id
      | some r =>
        obtain ⟨d, codes⟩ := r
        rintro ⟨hd, hfin, hle, hpre, hcodes⟩
        refine ⟨hd, hfin, hle, hpre, hcodes.cons ?_⟩
        have hidx : dist.idxOf v < dist.length := idxOf_lt_length_of_mem hv
        rw [prefix_iff_getElem?.mp hpre _ hidx, getElem_idxOf hidx]
    · rw [if_neg hv]
      by_cases hfull : dictMaxDistinct ≤ dist.length
      · rw [if_pos hfull]
        -- the full dictionary and the new value are distinct elements of the stream
        have hsub : (v :: dist).toFinset ⊆ (dist ++ v :: vs).toFinset := by
          intro u hu
          simp only [mem_toFinset, mem_append, mem_cons] at hu ⊢
          rcases hu with rfl | hu
          · exact Or.inr (Or.inl rfl)
          · exact Or.inl hu
        have hcard := Finset.card_le_card hsub
        rw [toFinset_card_of_nodup (nodup_cons.mpr ⟨hv, hnodup⟩), length_cons] at hcard
        omega
      · rw [if_neg hfull]
        have hnodup' : (dist ++ [v]).Nodup := by
          rw [nodup_append]
          refine ⟨hnodup, nodup_singleton v, ?_⟩
          intro a ha b hb
          rw [mem_singleton] at hb
          subst hb
          exact fun hab => hv (hab ▸ ha)
        have hih := ih (dist ++ [v]) hnodup' (by rw [length_append, length_singleton]; omega)
        rw [append_assoc, singleton_append] at hih
        revert hih
        cases linearCodes (dist ++ [v]) vs with
        | none => exact id
        | some r =>
          obtain ⟨d, codes⟩ := r
          rintro ⟨hd, hfin, hle, hpre, hcodes⟩
          refine ⟨hd, hfin, hle, (prefix_append dist [v]).trans hpre, hcodes.cons ?_⟩
          have hlen : dist.length < (dist ++ [v]).length := by simp
          rw [prefix_iff_getElem?.mp hpre _ hlen]
          simp

/-- The number of distinct values of a stream. -/
def distinctCount (vals : List (List Byte)) : ℕ := vals.toFinset.card

/-- The size of the dictionary form of a fixed-width stream. -/
def dictSize (w : ℕ) (vals : List (List Byte)) : ℕ :=
  let d := distinctCount vals
  4 + d * w + 1 + (vals.length * bitsNeeded (BitVec.ofNat 64 (d - 1)) + 7) / 8

variable {att : Attribute}

theorem length_flatMap_dictEntryBytes (hatt : 0 < att.attlen)
    (h : ∀ v ∈ dist, v.length = att.attlen.toNat) :
    (dist.flatMap (dictEntryBytes att)).length = dist.length * att.attlen.toNat := by
  induction dist with
  | nil => simp
  | cons v dist ih =>
    rw [flatMap_cons, length_append, ih fun u hu => h u (mem_cons_of_mem v hu),
      dictEntryBytes, if_pos hatt, h v mem_cons_self, length_cons]
    ring

/-- The dictionary encoder on a stream: what it returns, in terms of the distinct values. -/
theorem encodeDict_eq (att : Attribute) (rawLen : ℕ) (vals : List (List Byte)) :
    (dictMaxDistinct < distinctCount vals ∧ encodeDict att rawLen vals = .ok none) ∨
      (distinctCount vals ≤ dictMaxDistinct ∧ ∃ dist codes,
        encodeDict att rawLen vals = .ok (keepIfSmaller rawLen (dictBody att dist codes)) ∧
        dist.length = distinctCount vals ∧ (∀ v ∈ dist, v ∈ vals) ∧
        CodesFor dist codes vals) := by
  have hspec := linearCodes_spec [] vals nodup_nil (Nat.zero_le _)
  have hloop : dictLoop .init vals = .ok (linearCodes [] vals) :=
    dictLoop_eq DictState.inv_init vals
  rw [nil_append] at hspec
  unfold encodeDict
  rw [hloop]
  revert hspec
  cases linearCodes [] vals with
  | none =>
    intro hcard
    exact Or.inl ⟨hcard, rfl⟩
  | some r =>
    obtain ⟨dist, codes⟩ := r
    rintro ⟨hnodup, hfin, hle, -, hcodes⟩
    have hlen : dist.length = distinctCount vals := by
      rw [distinctCount, ← hfin, toFinset_card_of_nodup hnodup]
    refine Or.inr ⟨hlen ▸ hle, dist, codes, rfl, hlen, ?_, hcodes⟩
    intro v hv
    rw [← mem_toFinset, ← hfin, mem_toFinset]
    exact hv

/-- **The hash build assigns the codes of a linear search**, in first-seen order, and every
probe stops; so the bytes kept are those of the linear build.  It gives up exactly on the
streams with more distinct values than a dictionary holds. -/
theorem dictLoop_init (att : Attribute) (rawLen : ℕ) (vals : List (List Byte)) :
    dictLoop .init vals = .ok (linearCodes [] vals) ∧
      (linearCodes [] vals = none ↔ dictMaxDistinct < distinctCount vals) ∧
      encodeDict att rawLen vals = .ok ((linearCodes [] vals).bind fun r =>
        keepIfSmaller rawLen (dictBody att r.1 r.2)) := by
  have hloop : dictLoop .init vals = .ok (linearCodes [] vals) :=
    dictLoop_eq DictState.inv_init vals
  have hspec := linearCodes_spec [] vals nodup_nil (Nat.zero_le _)
  rw [nil_append] at hspec
  refine ⟨hloop, ?_, ?_⟩
  · revert hspec
    cases linearCodes [] vals with
    | none =>
      intro hcard
      exact iff_of_true rfl hcard
    | some r =>
      rintro ⟨hnodup, hfin, hle, -⟩
      rw [← toFinset_card_of_nodup hnodup, hfin] at hle
      exact iff_of_false nofun (not_lt.mpr hle)
  · unfold encodeDict
    rw [hloop]
    cases linearCodes [] vals <;> rfl

/-- The size of what `encode_dict` keeps, for a fixed width. -/
theorem encodeDict_eq_size (rawLen : ℕ)
    (hatt : 0 < att.attlen) (hw : ∀ v ∈ vals, v.length = att.attlen.toNat) :
    ∃ r, encodeDict att rawLen vals = .ok r ∧ r.map List.length =
      if dictMaxDistinct < distinctCount vals ∨ rawLen ≤ dictSize att.attlen.toNat vals then none
      else some (dictSize att.attlen.toNat vals) := by
  rcases encodeDict_eq att rawLen vals with ⟨hbig, henc⟩ | ⟨hle, dist, codes, henc, hlen, hmem, hc⟩
  · refine ⟨none, henc, ?_⟩
    rw [if_pos (Or.inl hbig)]
    rfl
  · refine ⟨_, henc, ?_⟩
    have hsize : (dictBody att dist codes).length = dictSize att.attlen.toNat vals := by
      unfold dictBody dictSize
      dsimp only
      rw [length_append, length_append, length_leBytes, length_cons,
        length_bitpack, length_flatMap_dictEntryBytes hatt fun v hv => hw v (hmem v hv),
        length_map, hc.length, hlen]
      omega
    rw [keepIfSmaller, hsize]
    by_cases hraw : rawLen ≤ dictSize att.attlen.toNat vals
    · rw [if_pos hraw, if_pos (Or.inr hraw)]
      rfl
    · rw [if_neg hraw, if_neg (by omega), Option.map_some, hsize]

/-! ### Decoding -/

theorem dictEntries_flatMap (hatt : 0 < att.attlen ∨ att.attlen = -1)
    (hval : ∀ v ∈ dist, 0 < att.attlen → v.length = att.attlen.toNat)
    (hlen : ∀ v ∈ dist, v.length < 2 ^ 32) (rest : List Byte) :
    dictEntries att dist.length (dist.flatMap (dictEntryBytes att) ++ rest) = .ok (dist, rest) := by
  induction dist with
  | nil => rfl
  | cons v dist ih =>
    have hrest := ih (fun u hu => hval u (mem_cons_of_mem v hu))
      (fun u hu => hlen u (mem_cons_of_mem v hu))
    have hv := hlen v mem_cons_self
    rw [flatMap_cons, append_assoc, length_cons, dictEntries, dictEntryBytes]
    set tail := dist.flatMap (dictEntryBytes att) ++ rest
    rcases hatt with hpos | hneg
    · have hw := hval v mem_cons_self hpos
      have hread := readBytes_append v tail
      rw [hw] at hread
      simp only [if_pos hpos, hread, drop_left' hw, hrest, bind, Except.bind, pure, Except.pure]
      rw [if_neg]
      rw [length_append, hw]
      omega
    · have hnot : ¬ 0 < att.attlen := by omega
      have hnum : leNat (leBytes 4 v.length) = v.length :=
        leNat_leBytes_of_lt (hv.trans_le (by norm_num))
      have hhdr := readBytes_append (leBytes 4 v.length) (v ++ tail)
      rw [length_leBytes] at hhdr
      have hdrop : (leBytes 4 v.length ++ (v ++ tail)).drop 4 = v ++ tail :=
        drop_left' (by simp)
      simp only [if_neg hnot, append_assoc, hhdr, hnum, hdrop, readBytes_append,
        drop_left, hrest, bind, Except.bind, pure, Except.pure]
      rw [if_neg (by simp), if_neg (by simp)]

theorem dictEmit_codes (hd : dist.length ≤ dictMaxDistinct) (h : CodesFor dist codes vals)
    {pos rawLen : ℕ}
    (hraw : rawLen = pos + vals.flatten.length) :
    dictEmit dist rawLen pos (codes.map (BitVec.ofNat 64)) = .ok vals.flatten := by
  induction vals generalizing codes pos with
  | nil =>
    obtain rfl : codes = [] := eq_nil_of_length_eq_zero (by simpa using h.length)
    rw [map_nil, dictEmit, if_neg (by simp [hraw])]
    rfl
  | cons v vals ih =>
    cases codes with
    | nil => exact absurd h.length (by simp)
    | cons c codes =>
      obtain ⟨hc, hrest⟩ : dist[c]? = some v ∧ CodesFor dist codes vals := by
        simpa [CodesFor] using h
      have hclt : c < dist.length := (List.getElem?_eq_some_iff.mp hc).1
      have hmax : dictMaxDistinct = 1024 := rfl
      have hcode : (BitVec.ofNat 64 c).toNat % 2 ^ 32 = c := by
        rw [BitVec.toNat_ofNat, mod_eq_of_lt (show c < 2 ^ 64 by omega),
          mod_eq_of_lt (by omega)]
      have hget : dist.getD c [] = v := by
        rw [getD_eq_getElem?_getD, hc]
        rfl
      rw [flatten_cons, length_append] at hraw
      have hih := ih hrest (show rawLen = pos + v.length + vals.flatten.length by omega)
      rw [map_cons, dictEmit]
      simp only [hcode, hget, hih, bind, Except.bind, pure, Except.pure]
      rw [if_neg (by omega), if_neg (by omega), flatten_cons]

/-- **DICT round trip.** -/
theorem decodeDict_encodeDict (hatt : 0 < att.attlen ∨ att.attlen = -1)
    {rawLen : ℕ} {out : List Byte}
    (hval : ∀ v ∈ vals, 0 < att.attlen → v.length = att.attlen.toNat)
    (hlen : ∀ v ∈ vals, v.length < 2 ^ 32)
    (h : encodeDict att rawLen vals = .ok (some out)) :
    decodeDict att out vals.length vals.flatten.length = .ok vals.flatten := by
  rcases encodeDict_eq att rawLen vals with ⟨-, henc⟩ | ⟨hle, dist, codes, henc, hdl, hmem, hc⟩
  · rw [henc] at h
    exact absurd (Except.ok.inj h) (by simp)
  · rw [henc] at h
    obtain ⟨rfl, -⟩ := keepIfSmaller_eq_some (Except.ok.inj h)
    rw [← hdl] at hle
    have hmax : dictMaxDistinct = 1024 := rfl
    unfold dictBody
    dsimp only
    set width := bitsNeeded (BitVec.ofNat 64 (dist.length - 1)) with hwidth
    have hw64 : width ≤ 64 := bitsNeeded_le _
    set body := BitVec.ofNat 8 width :: bitpack (codes.map (BitVec.ofNat 64)) width with hbody
    have hnd : leNat (leBytes 4 dist.length) = dist.length :=
      leNat_leBytes_of_lt (by norm_num; omega)
    have hentries := dictEntries_flatMap hatt (fun v hv => hval v (hmem v hv))
      (fun v hv => hlen v (hmem v hv)) body
    -- every code is below the number of entries, so it fits the code width
    have hfit : ∀ c ∈ codes.map (BitVec.ofNat 64), c.toNat < 2 ^ width := by
      intro c hcm
      obtain ⟨k, hk, rfl⟩ := mem_map.mp hcm
      have hk' : dist[k]? ∈ vals.map some := by
        rw [← hc]
        exact mem_map_of_mem hk
      obtain ⟨v, -, hv⟩ := mem_map.mp hk'
      have hklt : k < dist.length := (List.getElem?_eq_some_iff.mp hv.symm).1
      refine toNat_lt_two_pow_bitsNeeded ?_
      rw [BitVec.le_def, BitVec.toNat_ofNat, BitVec.toNat_ofNat,
        mod_eq_of_lt (show k < 2 ^ 64 by omega),
        mod_eq_of_lt (show dist.length - 1 < 2 ^ 64 by omega)]
      omega
    have hunpack := bitunpack_bitpack (codes.map (BitVec.ofNat 64)) hw64 hfit []
    rw [append_nil, length_map, hc.length] at hunpack
    have hhdr := readBytes_append (leBytes 4 dist.length)
      (dist.flatMap (dictEntryBytes att) ++ body)
    rw [length_leBytes] at hhdr
    have hdrop : (leBytes 4 dist.length ++ (dist.flatMap (dictEntryBytes att) ++ body)).drop 4 =
        dist.flatMap (dictEntryBytes att) ++ body := drop_left' (by simp)
    have hwbyte : readByte body 0 = .ok (BitVec.ofNat 8 width) := rfl
    have hwn : (BitVec.ofNat 8 width).toNat = width := by
      rw [BitVec.toNat_ofNat, mod_eq_of_lt (by omega)]
    have htail : body.drop 1 = bitpack (codes.map (BitVec.ofNat 64)) width := rfl
    have hemit := dictEmit_codes hle hc (show vals.flatten.length = 0 + vals.flatten.length by
      omega)
    unfold decodeDict
    rw [if_neg (by simp)]
    simp only [hhdr, bind, Except.bind, hnd, hdrop, hentries, hwbyte, hwn, htail, hunpack, hemit]
    rw [if_neg (by simp [hbody])]

end Encoding
end PgColumnar
