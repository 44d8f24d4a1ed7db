import PgColumnar.Iceberg.PosDeletes
import PgColumnar.Iceberg.Probe

/-!
# The rows of a snapshot

The deletes of an Iceberg snapshot, as the format defines them: a data file loses the rows whose
ordinals a deletion vector for it holds, or without such a vector the ones that position deletes
name, and the rows that equal a row of an equality delete.  The first two kinds apply to data of
their own commit, the last only to older data, and within its partition.

## Main definitions

* `Deleted` — a position delete, a deletion vector or an equality delete applies to the row.

## Main results

* `iceWalkDataFiles_spec` — the files of the snapshot.
* `scanCore_rows` — the rows that are returned, in order.
-/

namespace PgColumnar.Iceberg

open Bytes Parquet List

/-! ### What the format says -/

/-- The data sequence number of a file: its own, 0 where the manifest has none, or for an added file
that of the manifest. -/
def dataSeq (m : ManifestFile) (e : ManifestEntry) : Option ℤ :=
  match e.sequenceNumber with
  | some seq => some seq
  | none => if e.hasSequenceField = false then some 0 else if e.status =
    1 then m.sequenceNumber else none

/-- The file of an entry that was not removed. -/
def liveEntry (content : ℤ) (m : ManifestFile) (e : ManifestEntry) : Option IceEntry :=
  if e.status ≠ 2 ∧ e.content = content then
    e.filePath.bind fun path => (dataSeq m e).map fun seq => e.toIceEntry m path seq
  else none

/-- The live files of a kind: data, position deletes and deletion vectors, equality deletes. -/
def liveEntries (content : ℤ) (md : Metadata) : List IceEntry :=
  (md.manifests.getD []).flatMap fun m => (m.entries.getD []).filterMap (liveEntry content m)

/-- A value of a partition tuple. -/
def PartCell.value (c : PartCell) : Option (ℤ ⊕ List Byte) :=
  if c.isnull then none else some (if c.isBytes then .inr c.bytes else .inl c.ival)

/-- The deletion vector `v` references the data file `d`, and is not older. -/
def DvApplies (v d : IceEntry) : Prop :=
  isFormat "PUFFIN" v.fileFormat = true ∧ d.seq ≤ v.seq ∧
    ∃ ref, v.refDataFile = some ref ∧ icePathEq ref d.filePath = true

/-- The ordinal is in the deletion vector. -/
def InVector (st : Store) (v : IceEntry) (i : ℕ) : Prop :=
  ∃ offset size ref pos, v.contentOffset = some offset ∧ v.contentSize = some size ∧
    v.refDataFile = some ref ∧
    st.puffin v.filePath offset size ref = some pos ∧ i ∈ pos

/-- An equality delete of an unpartitioned spec, or of the data file's partition. -/
def InScope (md : Metadata) (e d : IceEntry) : Prop :=
  ∃ specId, e.specId = some specId ∧ (iceSpecIsPartitioned md.specs specId = .ok false ∨
    d.specId = some specId ∧ e.partCells.map PartCell.value = d.partCells.map PartCell.value)

section

variable (coercionFunction : TypeOid → Bool) (coerceFn : TypeOid → ℤ → Datum → Option Datum)

/-- A row of the position-delete file `p` names the ordinal of the data file `d`. -/
def NamedBy (st : Store) (p d : IceEntry) (i : ℕ) : Prop :=
  isFormat "PUFFIN" p.fileFormat = false ∧ d.seq ≤ p.seq ∧ ∃ g k path, st.file p.filePath = some g ∧
      fieldValue coercionFunction coerceFn g (2147483546, .text) k = some (some (.text path)) ∧
      fieldValue coercionFunction coerceFn g (2147483545, .int8) k = some (some (.int i)) ∧
      icePathEq (textToCstring path) d.filePath = true

/-- A row of the equality delete `e` equals the row of the file on all its columns; null equals
null. -/
def EqualsRow (st : Store) (md : Metadata) (e : IceEntry) (f : DataFile) (i : ℕ) : Prop :=
  ∃ g k, st.file e.filePath = some g ∧
    ∀ id ∈ e.eqIds, ∃ typid v, iceEqColType md.fields id = .ok typid ∧
    fieldValue coercionFunction coerceFn g (id, typid) k = some v ∧
    fieldValue coercionFunction coerceFn f (id, typid) i = some v

/-- The row of the data file `d`, which holds `f`, is deleted. -/
def Deleted (st : Store) (md : Metadata) (d : IceEntry) (f : DataFile) (i : ℕ) : Prop :=
  ((∃ v ∈ liveEntries 1 md, DvApplies v d ∧ InVector st v i) ∨
    (¬ ∃ v ∈ liveEntries 1 md, DvApplies v d) ∧
      ∃ p ∈ liveEntries 1 md, NamedBy coercionFunction coerceFn st p d i) ∨
  ∃ e ∈ liveEntries 2 md, d.seq < e.seq ∧ InScope md e d ∧
    EqualsRow coercionFunction coerceFn st md e f i

end

variable {coercionFunction : TypeOid → Bool} {coerceFn : TypeOid → ℤ → Datum → Option Datum}
  {hashProc : TypeOid → Datum → BitVec 32} {st : Store} {md : Metadata} {d : IceEntry}
  {f : DataFile}
  {cols : List (ℕ × TypeOid)} {rows : List Row} {E : IceEqDel}

/-! ### The entries -/

theorem dataSeq_of_resolveSeq {m : ManifestFile} {e : ManifestEntry} {path : CString} {seq : ℤ}
    (h : resolveSeq m e path = .ok seq) : dataSeq m e = some seq := by
  unfold resolveSeq at h
  unfold dataSeq
  cases hown : e.sequenceNumber with
  | some own =>
    rw [hown] at h
    exact congrArg some (Except.ok.inj h)
  | none =>
    rw [hown] at h
    dsimp only at h ⊢
    split at h
    · next hfield =>
      rw [if_pos hfield]
      exact congrArg some (Except.ok.inj h)
    · next hfield =>
      rw [if_neg hfield]
      split_ifs at h with hadded
      rw [if_pos (not_not.mp hadded)]
      cases hmanifest : m.sequenceNumber with
      | none => simp [hmanifest] at h
      | some seq' =>
        rw [hmanifest] at h
        exact congrArg some (Except.ok.inj h)

variable {c : IceScanCtx}

theorem walkEntries_spec {m : ManifestFile} {es : List ManifestEntry} {c' : IceScanCtx}
    (h : walkEntries m es c = .ok c') : c'.data = c.data ++ es.filterMap (liveEntry 0 m) ∧
      c'.posdel = c.posdel ++ es.filterMap (liveEntry 1 m) ∧
        c'.eqdel = c.eqdel ++ es.filterMap (liveEntry 2 m) := by
  induction es generalizing c with
  | nil =>
    cases h
    simp
  | cons e es ih =>
    rw [walkEntries] at h
    split at h
    · cases h
    · next hcontent =>
      split at h
      · cases h
      · split at h
        · next hremoved =>
          have hnone : ∀ content, liveEntry content m e = none := by simp [liveEntry, hremoved]
          simpa [hnone] using ih h
        · next hlive =>
          cases hpath : e.filePath with
          | none => simp [hpath] at h
          | some path =>
            rw [hpath] at h
            dsimp only at h
            split at h
            · cases h
            · next seq hseq =>
              obtain ⟨hdata, hposdel, heqdel⟩ := ih h
              rw [hdata, hposdel, heqdel]
              have hentry : ∀ content, liveEntry content m e =
                  if e.content = content then some (e.toIceEntry m path seq) else none := by
                intro content
                simp [liveEntry, hlive, hpath, dataSeq_of_resolveSeq hseq]
              -- one of the three kinds
              have hkind : e.content = 0 ∨ e.content = 1 ∨ e.content = 2 := by omega
              rcases hkind with hkind | hkind | hkind <;> simp [hentry, hkind, iceScanCb]

theorem walkManifests_spec {ms : List ManifestFile} {c' : IceScanCtx}
    (h : walkManifests ms c = .ok c') :
    c'.data = c.data ++ ms.flatMap (fun m => (m.entries.getD []).filterMap (liveEntry 0 m)) ∧
      c'.posdel = c.posdel ++ ms.flatMap (fun m => (m.entries.getD []).filterMap (liveEntry 1 m)) ∧
      c'.eqdel = c.eqdel ++ ms.flatMap
        (fun m => (m.entries.getD []).filterMap (liveEntry 2 m)) := by
  induction ms generalizing c with
  | nil =>
    cases h
    simp
  | cons m ms ih =>
    rw [walkManifests] at h
    split_ifs at h
    cases hentries : m.entries with
    | none => simp [hentries] at h
    | some es =>
      rw [hentries] at h
      dsimp only at h
      split at h
      · cases h
      · next c'' hwalk =>
        obtain ⟨hdata, hposdel, heqdel⟩ := walkEntries_spec hwalk
        obtain ⟨hdata', hposdel', heqdel'⟩ := ih h
        simp [hentries, hdata', hposdel', heqdel', hdata, hposdel, heqdel]

/-- The walk collects the live files. -/
theorem iceWalkDataFiles_spec (h : iceWalkDataFiles md = .ok c) :
    c.data = liveEntries 0 md ∧ c.posdel = liveEntries 1 md ∧ c.eqdel = liveEntries 2 md := by
  simpa [liveEntries] using walkManifests_spec h

/-! ### Position deletes -/

theorem readColumns_ok {path : CString}
    (h : readColumns coercionFunction coerceFn st path cols = .ok rows) :
    ∃ g, st.file path = some g ∧ readParquetByFieldId coercionFunction coerceFn g
      (cols.map fun c => plainAtt c.2) (cols.map (·.1)) = .ok rows := by
  unfold readColumns at h
  cases hfile : st.file path with
  | none => simp [hfile] at h
  | some g =>
    rw [hfile] at h
    dsimp only at h
    split at h
    · cases h
    · next rows' hread => exact ⟨g, rfl, (Except.ok.inj h) ▸ hread⟩

theorem posDelRow_eq_ok {pd : IceEntry} {row : Row} {r : IcePosDel} (h : posDelRow pd row = .ok r) :
    ∃ path pos, row = [some (.text path), some (.int pos)] ∧ 0 ≤ pos ∧
      r = ⟨textToCstring path, pos, pd.seq⟩ := by
  unfold posDelRow at h
  split at h
  · next path pos =>
    split_ifs at h with hpos
    exact ⟨path, pos, rfl, not_lt.mp hpos, (Except.ok.inj h).symm⟩
  · cases h

variable {pds : List IceEntry}

theorem iceReadPosDeletes_spec {out : List IcePosDel}
    (h : iceReadPosDeletes coercionFunction coerceFn st pds = .ok out) (r : IcePosDel) :
    r ∈ out ↔ ∃ pd ∈ pds, isFormat "PUFFIN" pd.fileFormat = false ∧
      ∃ g k path pos, st.file pd.filePath = some g ∧
      fieldValue coercionFunction coerceFn g (2147483546, .text) k = some (some (.text path)) ∧
      fieldValue coercionFunction coerceFn g (2147483545, .int8) k = some (some (.int pos)) ∧
        0 ≤ pos ∧
      r = ⟨textToCstring path, pos, pd.seq⟩ := by
  induction pds generalizing out with
  | nil =>
    cases h
    simp
  | cons pd pds ih =>
    rw [iceReadPosDeletes] at h
    simp only [mem_cons, exists_eq_or_imp]
    split at h
    · next hpuffin => simp [ih h, hpuffin]
    · next hpuffin =>
      split_ifs at h
      split at h
      · cases h
      · next rows hread =>
        split at h
        · cases h
        · next dels hdels =>
          split at h
          · cases h
          · next more hmore =>
            obtain rfl := Except.ok.inj h
            rw [mem_append, ih hmore]
            refine or_congr_left ?_
            obtain ⟨g, hg, hread'⟩ := readColumns_ok hread
            have hall := MapM.eq_ok_iff.mp hdels
            -- both columns come from one read, row by row
            have hpath := @fieldValue_of_read coercionFunction coerceFn g posDelCols rows
              hread' 0 _ rfl
            have hpos := @fieldValue_of_read coercionFunction coerceFn g posDelCols rows
              hread' 1 _ rfl
            constructor
            · intro hr
              obtain ⟨k, hk⟩ := mem_iff_getElem?.mp hr
              obtain ⟨row, hrow, hdel⟩ := exists_of_forall₂ hall.flip hk
              obtain ⟨path, pos, rfl, hle, rfl⟩ := posDelRow_eq_ok hdel
              exact ⟨by simpa using hpuffin, g, k, path, pos, hg, by simp [hpath, hrow], by
                simp [hpos, hrow], hle, rfl⟩
            · rintro ⟨_, g', k, path, pos, hg', hpath', hpos', hle, heq⟩
              obtain rfl : g = g' := Option.some.inj (hg.symm.trans hg')
              rw [hpath] at hpath'
              rw [hpos] at hpos'
              obtain ⟨row, hrow, hfirst⟩ := Option.bind_eq_some_iff.mp hpath'
              rw [hrow, Option.bind_some] at hpos'
              obtain ⟨del, hdel, hok⟩ := exists_of_forall₂ hall hrow
              obtain ⟨path', pos', rfl, -, rfl⟩ := posDelRow_eq_ok hok
              obtain rfl : path' = path := by simpa using hfirst
              obtain rfl : pos' = pos := by simpa using hpos'
              exact heq ▸ mem_of_getElem? hdel

variable {fmt : ℤ} {seen : List CString} {out : List IceDvDel}

/-- What reading one delete file gives. -/
theorem iceReadDvs_cons {pd : IceEntry} (h : iceReadDvs st fmt seen (pd :: pds) = .ok out) :
    isFormat "PUFFIN" pd.fileFormat = false ∧ iceReadDvs st fmt seen pds = .ok out ∨
      isFormat "PUFFIN" pd.fileFormat = true ∧ ∃ offset size ref pos more,
        pd.contentOffset = some offset ∧ pd.contentSize = some size ∧ pd.refDataFile = some ref ∧
        st.puffin pd.filePath offset size ref = some pos ∧
          iceReadDvs st fmt (seen ++ [ref]) pds = .ok more ∧
        out = ⟨ref, pd.seq, pos⟩ :: more := by
  rw [iceReadDvs] at h
  split at h
  · next hpuffin => exact .inl ⟨hpuffin, h⟩
  · next hpuffin =>
    refine .inr ⟨Bool.eq_true_of_not_eq_false hpuffin, ?_⟩
    split_ifs at h
    split at h
    · cases h
    · next ref href =>
      split at h
      · next offset size hoffset hsize =>
        split_ifs at h
        split at h
        · cases h
        · next pos hblob =>
          split_ifs at h
          split at h
          · cases h
          · next more hmore =>
              exact ⟨offset, size, ref, pos, more, hoffset, hsize, href, hblob, hmore,
                (Except.ok.inj h).symm⟩
      · cases h

theorem iceReadDvs_spec (h : iceReadDvs st fmt seen pds = .ok out) (v : IceDvDel) :
    v ∈ out ↔ ∃ pd ∈ pds, isFormat "PUFFIN" pd.fileFormat = true ∧ ∃ offset size ref pos,
      pd.contentOffset = some offset ∧ pd.contentSize = some size ∧ pd.refDataFile = some ref ∧
      st.puffin pd.filePath offset size ref = some pos ∧ v = ⟨ref, pd.seq, pos⟩ := by
  induction pds generalizing seen out with
  | nil =>
    cases h
    simp
  | cons pd pds ih =>
    simp only [mem_cons, exists_eq_or_imp]
    obtain ⟨hpuffin, h⟩ | ⟨hpuffin, offset, size, ref, pos, more, ho, hs, href, hblob, hmore,
      rfl⟩ := iceReadDvs_cons h
    · simp [ih h, hpuffin]
    · rw [mem_cons, ih hmore]
      refine or_congr_left ?_
      simp [hpuffin, ho, hs, href, hblob]

/-- Each deletion vector is read. -/
theorem exists_dv_of_read
    (h : iceReadDvs st fmt seen pds = .ok out) {pd : IceEntry} (hpd : pd ∈ pds)
    (hpuffin : isFormat "PUFFIN" pd.fileFormat = true) {ref : CString}
    (href : pd.refDataFile = some ref) :
    ∃ v ∈ out, v.dpath = ref ∧ v.seq = pd.seq := by
  induction pds generalizing seen out with
  | nil => exact (not_mem_nil hpd).elim
  | cons pd' pds ih =>
    obtain ⟨hnot, h⟩ | ⟨_, _, _, ref', _, more, _, _, href', _, hmore, rfl⟩ := iceReadDvs_cons h
    · rcases mem_cons.mp hpd with rfl | hpd
      · rw [hpuffin] at hnot
        cases hnot
      · exact ih h hpd
    · rcases mem_cons.mp hpd with rfl | hpd
      · cases href.symm.trans href'
        exact ⟨_, mem_cons_self, rfl, rfl⟩
      · obtain ⟨v, hv, hrest⟩ := ih hmore hpd
        exact ⟨v, mem_cons_of_mem _ hv, hrest⟩

variable {hash : CString × Bool → ℕ} {posdels : List IcePosDel} {dvdels : List IceDvDel}

/-- The positions that a data file loses. -/
theorem mem_positionSkip {i : ℕ} : i ∈ positionSkip hash posdels dvdels d ↔
      (∃ v ∈ dvdels, (d.seq ≤ v.seq ∧ icePathEq v.dpath d.filePath = true) ∧ i ∈ v.pos) ∨
      (¬ ∃ v ∈ dvdels, d.seq ≤ v.seq ∧ icePathEq v.dpath d.filePath = true) ∧
        ∃ r ∈ posdels, icePathEq r.dpath d.filePath = true ∧ d.seq ≤ r.seq ∧ r.pos.toNat = i := by
  have hhash : ∀ p q, icePathEq p q = true → hash (icePathTail p) = hash (icePathTail q) :=
    icePosdelHash_congr hash
  unfold positionSkip
  simp only [Buckets.lookup_foldl_insert icePathEq_symm icePathEq_trans hhash]
  have happlies : (dvdels.filter fun v =>
    decide (d.seq ≤ v.seq) && icePathEq v.dpath d.filePath) ≠ [] ↔
      ∃ v ∈ dvdels, d.seq ≤ v.seq ∧ icePathEq v.dpath d.filePath = true := by
    rw [Ne, filter_eq_nil_iff]
    simp
  split
  · next hdv =>
    have hno := happlies.mp hdv
    simp only [not_true_eq_false, hno, false_and, or_false]
    simp [mem_flatMap, and_assoc]
  · next hdv =>
    have hno : ¬ _ := fun h => hdv (happlies.mpr h)
    have hnone : ¬ ∃ v ∈ dvdels, (d.seq ≤ v.seq ∧ icePathEq v.dpath d.filePath = true) ∧
      i ∈ v.pos :=
      fun ⟨v, hv, happlies, _⟩ => hno ⟨v, hv, happlies⟩
    rw [iff_false_intro hnone, false_or, and_iff_right hno]
    simp [and_assoc, and_left_comm]

/-! ### Equality deletes -/

variable {bs : List (List IceEqRow)}

theorem chain_length {row : IceEqRow} : (chain bs row).length = bs.length := by
  simp [chain]

theorem foldl_chain_length {l : List IceEqRow} : (l.foldl chain bs).length = bs.length := by
  induction l generalizing bs with
  | nil => rfl
  | cons row l ih => rw [foldl_cons, ih, chain_length]

/-- A chain holds the rows of its bucket. -/
theorem mem_foldl_chain {l : List IceEqRow} (hbs : 0 < bs.length) {b : ℕ} {row : IceEqRow} :
    row ∈ (l.foldl chain bs)[b]?.getD [] ↔
      (row ∈ l ∧ row.hash.toNat &&& (bs.length - 1) = b) ∨ row ∈ bs[b]?.getD [] := by
  induction l generalizing bs with
  | nil => simp
  | cons r l ih =>
    have hlt : r.hash.toNat &&& (bs.length - 1) < bs.length := by
      have hle : r.hash.toNat &&& (bs.length - 1) ≤ bs.length - 1 := Nat.and_le_right
      omega
    have hstep : row ∈ (chain bs r)[b]?.getD [] ↔
        (row = r ∧ r.hash.toNat &&& (bs.length - 1) = b) ∨ row ∈ bs[b]?.getD [] := by
      unfold chain
      rw [getElem?_modify]
      by_cases hb : r.hash.toNat &&& (bs.length - 1) = b
      · rw [hb] at hlt
        simp [hb, hlt]
      · simp [hb]
    rw [foldl_cons, ih (by rw [chain_length]; exact hbs), chain_length, hstep, mem_cons, ← or_assoc]
    refine or_congr_left ?_
    constructor
    · intro h
      rcases h with ⟨hmem, hb⟩ | ⟨rfl, hb⟩
      · exact ⟨.inr hmem, hb⟩
      · exact ⟨.inl rfl, hb⟩
    · intro ⟨hmem, hb⟩
      rcases hmem with rfl | hmem
      · exact .inr ⟨rfl, hb⟩
      · exact .inl ⟨hmem, hb⟩

theorem growBuckets_pos {nrows fuel n : ℕ} (hn : 0 < n) : 0 < growBuckets nrows fuel n := by
  induction fuel generalizing n with
  | zero => exact hn
  | succ fuel ih =>
    rw [growBuckets]
    split
    · exact ih (by omega)
    · exact hn

theorem mem_buildBuckets {l : List IceEqRow} (hl : l ≠ []) : 0 < (buildBuckets l).length ∧
    ∀ b row, row ∈ (buildBuckets l)[b]?.getD [] ↔ row ∈ l ∧
      row.hash.toNat &&& ((buildBuckets l).length - 1) = b := by
  unfold buildBuckets
  rw [if_neg hl, foldl_chain_length]
  have hpos : 0 < (List.replicate (growBuckets l.length 26 16) ([] : List IceEqRow)).length := by
    rw [length_replicate]
    exact growBuckets_pos (by decide)
  refine ⟨hpos, fun b row => ?_⟩
  have hempty : row ∉ (List.replicate (growBuckets l.length 26 16) ([] : List IceEqRow))[b]?.getD
    [] := by
    rw [getElem?_replicate]
    split <;> simp
  rw [mem_foldl_chain hpos, or_iff_left hempty]

theorem nullEq_iff {x y : Option Datum} : nullEq x y = true ↔ x = y := by
  cases x <;> cases y <;> simp [nullEq]

theorem all_nullEq_iff {as bs : List (Option Datum)} (h : as.length = bs.length) :
    (as.zip bs).all (fun r => nullEq r.1 r.2) = true ↔ as = bs := by
  induction as generalizing bs with
  | nil =>
    cases bs with
    | nil => simp
    | cons b bs => simp at h
  | cons a as ih =>
    cases bs with
    | nil => simp at h
    | cons b bs =>
      rw [zip_cons_cons, all_cons, Bool.and_eq_true, nullEq_iff, ih (by simpa using h),
        List.cons.injEq]

/-- The buckets and the hashes find the rows that are equal. -/
theorem eqMatches_iff {vals : List (Option Datum)}
    (hbuckets : E.buckets = buildBuckets (rows.map fun vals =>
      ⟨vals, iceEqHash hashProc E.cols vals⟩)) (hlen : ∀ row ∈ rows, row.length = vals.length) :
    eqMatches hashProc E vals = true ↔ vals ∈ rows := by
  have hpick : pick (List.range vals.length) vals = vals := by
    refine ext_getElem (by simp [pick]) fun k hk hk' => ?_
    simp [pick, hk']
  unfold eqMatches iceEqFileMatches
  rw [hpick, hbuckets]
  by_cases hrows : rows = []
  · simp [hrows, buildBuckets]
  · obtain ⟨hpos, hmem⟩ := @mem_buildBuckets
      (rows.map fun vals => ⟨vals, iceEqHash hashProc E.cols vals⟩) (by simpa using hrows)
    rw [if_neg (by omega), any_eq_true]
    simp only [hmem, Bool.and_eq_true, decide_eq_true_eq]
    constructor
    · rintro ⟨row, ⟨hrow, _⟩, _, hall⟩
      obtain ⟨vals', hvals', rfl⟩ := mem_map.mp hrow
      rwa [(all_nullEq_iff (hlen vals' hvals').symm).mp hall]
    · intro hvals
      exact ⟨_, ⟨mem_map.mpr ⟨vals, hvals, rfl⟩, rfl⟩, rfl, (all_nullEq_iff rfl).mpr rfl⟩

theorem row_length (h : readParquetByFieldId coercionFunction coerceFn f
      (cols.map fun c => plainAtt c.2)
      (cols.map (·.1)) = .ok rows) : ∀ row ∈ rows, row.length = cols.length := by
  obtain ⟨tops, raws, -, hattnos, hraws, hrows⟩ := readColumns_spec h
  have hfst := (@rawGroups_kept tops (fun _ => false) f.groups raws hraws).2
  intro row hrow
  obtain ⟨k, hk⟩ := mem_iff_getElem?.mp hrow
  obtain ⟨raw, hraw, hcoerce⟩ := exists_of_forall₂ hrows.flip hk
  have hnodup : (raw.map fun r => r.1.attno).Nodup := by
    have heq : raw.map (fun r => r.1.attno) = tops.map (·.attno) := by
      rw [← hfst raw (mem_of_getElem? hraw), map_map]
      rfl
    rw [heq, hattnos]
    exact nodup_range'
  rw [(coerceRow_spec hnodup hcoerce).1, length_replicate]

/-- The rows of a file, by the values of its columns. -/
theorem mem_rows_iff (hne : cols ≠ []) (h : readParquetByFieldId coercionFunction coerceFn f
      (cols.map fun c => plainAtt c.2) (cols.map (·.1)) = .ok rows)
        {g : ℕ × TypeOid → Option Datum} :
    cols.map g ∈ rows ↔ ∃ k, ∀ c ∈ cols, fieldValue coercionFunction coerceFn f c k =
      some (g c) := by
  constructor
  · intro hmem
    obtain ⟨k, hk⟩ := mem_iff_getElem?.mp hmem
    refine ⟨k, fun c hc => ?_⟩
    obtain ⟨j, hj⟩ := mem_iff_getElem?.mp hc
    rw [fieldValue_of_read h hj, hk, Option.bind_some, getElem?_map, hj]
    rfl
  · intro ⟨k, hk⟩
    obtain ⟨c, cs, hcons⟩ := exists_cons_of_ne_nil hne
    have hfirst := hk c (by rw [hcons]; exact mem_cons_self)
    rw [fieldValue_of_read h (show cols[0]? = some c by rw [hcons]; rfl)] at hfirst
    obtain ⟨row, hrow, -⟩ := Option.bind_eq_some_iff.mp hfirst
    have hlen := row_length h row (mem_of_getElem? hrow)
    -- the row has each of the values
    have heq : row = cols.map g := by
      refine ext_getElem? fun j => ?_
      rw [getElem?_map]
      cases hj : cols[j]? with
      | none =>
        rw [getElem?_eq_none_iff] at hj
        rw [getElem?_eq_none (by omega)]
        rfl
      | some c' =>
        have hval := hk c' (mem_of_getElem? hj)
        rwa [fieldValue_of_read h hj, hrow, Option.bind_some] at hval
    exact heq ▸ mem_of_getElem? hrow

/-- What is read of an equality delete. -/
structure EqDelOf (coercionFunction : TypeOid → Bool)
    (coerceFn : TypeOid → ℤ → Datum → Option Datum)
    (hashProc : TypeOid → Datum → BitVec 32) (st : Store) (md : Metadata) (ed : IceEntry)
    (E : IceEqDel) : Prop where
  ok : EqDelOk md.fields E
  seq : E.seq = ed.seq
  ids : E.cols.map (·.1) = ed.eqIds
  scope : match E.partition with
    | none => ∃ specId, ed.specId = some specId ∧ iceSpecIsPartitioned md.specs specId = .ok false
    | some (specId, cells) =>
      ed.specId = some specId ∧ iceSpecIsPartitioned md.specs specId = .ok true ∧
        cells = ed.partCells ∧ icePartIncomparable cells = false
  rows : ∃ g rows, st.file ed.filePath = some g ∧ readParquetByFieldId coercionFunction coerceFn g
    (E.cols.map fun c => plainAtt c.2) (E.cols.map (·.1)) = .ok rows ∧
    ∀ vals : List (Option Datum), vals.length = E.cols.length →
      (eqMatches hashProc E vals = true ↔ vals ∈ rows)

variable {ed : IceEntry}

theorem readEqDelete_spec (h : readEqDelete coercionFunction coerceFn hashProc st md ed = .ok E) :
    EqDelOf coercionFunction coerceFn hashProc st md ed E := by
  unfold readEqDelete at h
  split at h
  · cases h
  · next hids =>
    split_ifs at h
    split at h
    · cases h
    · next partition hpartition =>
      split at h
      · cases h
      · next types htypes =>
        split at h
        · cases h
        · next rows hread =>
          obtain rfl := Except.ok.inj h
          have hall := MapM.eq_ok_iff.mp htypes
          have hfst : (ed.eqIds.zip types).map (·.1) = ed.eqIds :=
            map_fst_zip (Nat.le_of_eq hall.length_eq)
          obtain ⟨g, hg, hread'⟩ := readColumns_ok hread
          refine ⟨⟨?_, ?_⟩, rfl, hfst, ?_, g, rows, hg, hread', fun vals hlen => ?_⟩
          · intro hnil
            dsimp only at hnil
            rw [hnil] at hfst
            exact hids hfst.symm
          · intro c hc
            exact forall₂_zip hall hc
          · unfold partitionOf at hpartition
            split at hpartition
            · cases hpartition
            · next specId hspec =>
              split at hpartition
              · cases hpartition
              · next hunpartitioned =>
                obtain rfl := Except.ok.inj hpartition
                exact ⟨specId, hspec, hunpartitioned⟩
              · next hpartitioned =>
                split_ifs at hpartition with hcells
                obtain rfl := Except.ok.inj hpartition
                refine ⟨hspec, hpartitioned, rfl, ?_⟩
                exact Bool.not_eq_true _ ▸ fun h => hcells (.inr h)
          · refine eqMatches_iff rfl fun row hrow => ?_
            rw [row_length hread' row hrow, hlen]

theorem iceReadEqDeletes_spec {minDataSeq : Option ℤ} {eds : List IceEntry} {out : List IceEqDel}
    (h : iceReadEqDeletes coercionFunction coerceFn hashProc st md minDataSeq eds = .ok out) :
    List.Forall₂ (EqDelOf coercionFunction coerceFn hashProc st md)
      (eds.filter fun ed => !minDataSeq.all (ed.seq ≤ ·)) out := by
  induction eds generalizing out with
  | nil =>
    cases h
    exact .nil
  | cons ed eds ih =>
    rw [iceReadEqDeletes] at h
    rw [filter_cons]
    split at h
    · next hskip => simpa [hskip] using ih h
    · next hskip =>
      split at h
      · cases h
      · next E hread =>
        split at h
        · cases h
        · next more hmore =>
          obtain rfl := Except.ok.inj h
          simpa [hskip] using ⟨readEqDelete_spec hread, ih hmore⟩

theorem icePartCellsEqual_iff {as bs : List PartCell} (ha : icePartIncomparable as = false)
    (hb : icePartIncomparable bs = false) :
    icePartCellsEqual as bs = true ↔ as.map PartCell.value = bs.map PartCell.value := by
  induction as generalizing bs with
  | nil => cases bs <;> simp [icePartCellsEqual]
  | cons a as ih =>
    cases bs with
    | nil => simp [icePartCellsEqual]
    | cons b bs =>
      simp only [icePartIncomparable, any_cons, Bool.or_eq_false_iff, Bool.not_eq_false'] at ha hb
      have ih' := @ih bs ha.2 hb.2
      rw [icePartCellsEqual, map_cons, map_cons, List.cons.injEq, ← ih']
      unfold PartCell.value
      cases a.isnull <;> cases b.isnull <;> cases a.isBytes <;> cases b.isBytes <;>
        simp [ha.1, hb.1]

/-- The deletes that apply to a data file. -/
theorem eligible_spec {eqdels : List IceEqDel} {out : List IceEqDel}
    (h : eligible d eqdels = .ok out)
    (hcells : ∀ E ∈ eqdels, ∀ specId cells, E.partition = some (specId, cells) →
      icePartIncomparable cells = false)
    (E : IceEqDel) : E ∈ out ↔ E ∈ eqdels ∧ d.seq < E.seq ∧
      ∀ specId cells, E.partition = some (specId, cells) →
      d.specId = some specId ∧ cells.map PartCell.value = d.partCells.map PartCell.value := by
  induction eqdels generalizing out with
  | nil =>
    cases h
    simp
  | cons E' es ih =>
    have ih' := fun out h => @ih out h fun E hE => hcells E (mem_cons_of_mem _ hE)
    have hhead := hcells E' mem_cons_self
    rw [eligible] at h
    -- either the delete is taken, or it does not apply
    have hskip : ∀ out, eligible d es = .ok out → ¬ (d.seq < E'.seq ∧ ∀ specId cells,
        E'.partition = some (specId, cells) → d.specId = some specId ∧
          cells.map PartCell.value = d.partCells.map PartCell.value) →
        (E ∈ out ↔ E ∈ E' :: es ∧ d.seq < E.seq ∧
          ∀ specId cells, E.partition = some (specId, cells) →
          d.specId = some specId ∧ cells.map PartCell.value = d.partCells.map PartCell.value) := by
      intro out hout hnot
      rw [ih' out hout, mem_cons]
      constructor
      · exact fun ⟨hmem, hrest⟩ => ⟨.inr hmem, hrest⟩
      · intro ⟨hmem, hrest⟩
        rcases hmem with rfl | hmem
        · exact (hnot hrest).elim
        · exact ⟨hmem, hrest⟩
    have htake : ∀ out, (eligible d es).map (E' :: ·) = .ok out → (d.seq < E'.seq ∧ ∀ specId cells,
        E'.partition = some (specId, cells) → d.specId = some specId ∧
          cells.map PartCell.value = d.partCells.map PartCell.value) →
        (E ∈ out ↔ E ∈ E' :: es ∧ d.seq < E.seq ∧
          ∀ specId cells, E.partition = some (specId, cells) →
          d.specId = some specId ∧ cells.map PartCell.value = d.partCells.map PartCell.value) := by
      intro out hout happlies
      cases hrest : eligible d es with
      | error e => simp [hrest, Except.map] at hout
      | ok out' =>
        rw [hrest] at hout
        obtain rfl := Except.ok.inj hout
        rw [mem_cons, mem_cons, ih' out' hrest]
        constructor
        · intro hmem
          rcases hmem with rfl | ⟨hmem, hE⟩
          · exact ⟨.inl rfl, happlies⟩
          · exact ⟨.inr hmem, hE⟩
        · intro ⟨hmem, hE⟩
          exact hmem.imp_right fun hmem => ⟨hmem, hE⟩
    split at h
    · next hseq => exact hskip out h fun happlies => absurd happlies.1 (not_lt.mpr hseq)
    · next hseq =>
      rw [not_le] at hseq
      split at h
      · next hnone => exact htake out h ⟨hseq, by simp [hnone]⟩
      · next specId cells hpartition =>
        split at h
        · cases h
        · next dataSpecId hspec =>
          split at h
          · next hne =>
            refine hskip out h fun happlies => hne ?_
            have heq := (happlies.2 specId cells hpartition).1
            exact (Option.some.inj (hspec.symm.trans heq)).symm
          · next hsame =>
            obtain rfl := not_not.mp hsame
            split at h
            · cases h
            · next hcomparable =>
              have hiff := icePartCellsEqual_iff (hhead specId cells hpartition)
                (Bool.eq_false_iff.mpr hcomparable)
              split at h
              · next hdiff =>
                refine hskip out h fun happlies => ?_
                rw [hiff.mpr (happlies.2 specId cells hpartition).2] at hdiff
                cases hdiff
              · next heq =>
                refine htake out h ⟨hseq, fun specId' cells' hpartition' => ?_⟩
                obtain ⟨rfl, rfl⟩ := Prod.ext_iff.mp
                  (Option.some.inj (hpartition.symm.trans hpartition'))
                exact ⟨hspec, hiff.mp (Bool.of_not_eq_false heq)⟩

/-! ### The scan -/

theorem scanFiles_spec {eqdels : List IceEqDel} {atts : List Att} {ids : List ℕ}
    {ds : List IceEntry} {out : List (List Row)}
    (h : scanFiles coercionFunction coerceFn hashProc hash st md atts ids posdels dvdels eqdels
      ds = .ok out) :
    List.Forall₂ (fun d rows => ∃ elig f, eligible d eqdels = .ok elig ∧
      st.file d.filePath = some f ∧
      scanFile coercionFunction coerceFn hashProc f atts ids md.nameMapping d.filePath
        (positionSkip hash posdels dvdels d) elig = .ok rows) ds out := by
  induction ds generalizing out with
  | nil =>
    cases h
    exact .nil
  | cons d ds ih =>
    rw [scanFiles] at h
    split_ifs at h
    split at h
    · cases h
    · next elig helig =>
      split at h
      · cases h
      · next f hf =>
        split at h
        · cases h
        · next rows hrows =>
          split at h
          · cases h
          · next more hmore =>
            obtain rfl := Except.ok.inj h
            exact .cons ⟨elig, f, helig, hf, hrows⟩ (ih hmore)

/-- The positions that a file loses are those that the format names. -/
theorem mem_positionSkip_iff
    (hposdels : iceReadPosDeletes coercionFunction coerceFn st (liveEntries 1 md) = .ok posdels)
    (hdvs : iceReadDvs st fmt [] (liveEntries 1 md) = .ok dvdels) {i : ℕ} :
    i ∈ positionSkip hash posdels dvdels d ↔
      (∃ v ∈ liveEntries 1 md, DvApplies v d ∧ InVector st v i) ∨
      (¬ ∃ v ∈ liveEntries 1 md, DvApplies v d) ∧
        ∃ p ∈ liveEntries 1 md, NamedBy coercionFunction coerceFn st p d i := by
  have hvector := iceReadDvs_spec hdvs
  have happlies : (∃ v ∈ dvdels, d.seq ≤ v.seq ∧ icePathEq v.dpath d.filePath = true) ↔
      ∃ v ∈ liveEntries 1 md, DvApplies v d := by
    constructor
    · intro ⟨v, hv, hseq, hpath⟩
      obtain ⟨pd, hpd, hpuffin, offset, size, ref, pos, -, -, href, -, rfl⟩ := (hvector v).mp hv
      exact ⟨pd, hpd, hpuffin, hseq, ref, href, hpath⟩
    · intro ⟨pd, hpd, hpuffin, hseq, ref, href, hpath⟩
      obtain ⟨v, hv, hvref, hvseq⟩ := exists_dv_of_read hdvs hpd hpuffin href
      exact ⟨v, hv, hvseq ▸ hseq, hvref ▸ hpath⟩
  rw [mem_positionSkip, happlies]
  refine or_congr ?_ (and_congr_right fun _ => ?_)
  · constructor
    · intro ⟨v, hv, ⟨hseq, hpath⟩, hi⟩
      obtain ⟨pd, hpd, hpuffin, offset, size, ref, pos, hoffset, hsize, href, hblob, rfl⟩ :=
        (hvector v).mp hv
      exact ⟨pd, hpd, ⟨hpuffin, hseq, ref, href, hpath⟩, offset, size, ref, pos, hoffset, hsize,
        href, hblob, hi⟩
    · intro ⟨pd, hpd, ⟨hpuffin, hseq, ref, href, hpath⟩, offset, size, ref', pos, hoffset, hsize,
        href', hblob, hi⟩
      obtain rfl : ref = ref' := Option.some.inj (href.symm.trans href')
      exact ⟨⟨ref, pd.seq, pos⟩, (hvector _).mpr
        ⟨pd, hpd, hpuffin, offset, size, ref, pos, hoffset, hsize, href, hblob, rfl⟩,
        ⟨hseq, hpath⟩, hi⟩
  · have hread := iceReadPosDeletes_spec hposdels
    constructor
    · intro ⟨r, hr, hpath, hseq, hi⟩
      obtain ⟨pd, hpd, hpuffin, g, k, path, pos, hg, hfst, hsnd, hle, rfl⟩ := (hread r).mp hr
      refine ⟨pd, hpd, hpuffin, hseq, g, k, path, hg, hfst, ?_, hpath⟩
      rw [hsnd, ← hi, Int.toNat_of_nonneg hle]
    · intro ⟨pd, hpd, hpuffin, hseq, g, k, path, hg, hfst, hsnd, hpath⟩
      exact ⟨⟨textToCstring path, i, pd.seq⟩,
        (hread _).mpr ⟨pd, hpd, hpuffin, g, k, path, i, hg, hfst, hsnd,
        Int.natCast_nonneg i, rfl⟩, hpath, hseq, Int.toNat_natCast i⟩

/-- A delete that is read matches the rows that it equals. -/
theorem EqDelOf.matches_iff (h : EqDelOf coercionFunction coerceFn hashProc st md ed E)
    (hread : readParquetByFieldId coercionFunction coerceFn f (cols.map fun c => plainAtt c.2)
      (cols.map (·.1)) =
      .ok rows) (hcols : ∀ c ∈ E.cols, c ∈ cols) {i : ℕ} (hi : i < rows.length) :
    eqMatches hashProc E (fieldValues coercionFunction coerceFn f E.cols i) = true ↔
      EqualsRow coercionFunction coerceFn st md ed f i := by
  obtain ⟨g, del, hg, hdel, hmatches⟩ := h.rows
  have hsome : ∀ c ∈ E.cols, ∃ v, fieldValue coercionFunction coerceFn f c i = some v := by
    intro c hc
    obtain ⟨j, hj⟩ := mem_iff_getElem?.mp (hcols c hc)
    have hlen := row_length hread rows[i] (getElem_mem hi)
    have hlt : j < rows[i].length := by
      rw [hlen]
      exact (List.getElem?_eq_some_iff.mp hj).1
    rw [fieldValue_of_read hread hj, getElem?_eq_getElem hi, Option.bind_some,
      getElem?_eq_getElem hlt]
    exact ⟨_, rfl⟩
  unfold fieldValues
  rw [hmatches _ (length_map _), mem_rows_iff h.ok.cols_ne hdel]
  constructor
  · intro ⟨k, hk⟩
    refine ⟨g, k, hg, fun id hid => ?_⟩
    rw [← h.ids] at hid
    obtain ⟨c, hc, rfl⟩ := mem_map.mp hid
    obtain ⟨v, hv⟩ := hsome c hc
    refine ⟨c.2, v, h.ok.types c hc, ?_, hv⟩
    rw [hk c hc, hv, Option.join_some]
  · intro ⟨g', k, hg', hequal⟩
    obtain rfl : g = g' := Option.some.inj (hg.symm.trans hg')
    refine ⟨k, fun c hc => ?_⟩
    have hid : c.1 ∈ ed.eqIds := h.ids ▸ mem_map_of_mem hc
    obtain ⟨typid, v, htype, hleft, hright⟩ := hequal c.1 hid
    obtain rfl : c.2 = typid := Except.ok.inj ((h.ok.types c hc).symm.trans htype)
    rw [hleft, hright, Option.join_some]

theorem EqDelOf.scope_iff (h : EqDelOf coercionFunction coerceFn hashProc st md ed E) :
    (∀ specId cells, E.partition = some (specId, cells) →
      d.specId = some specId ∧ cells.map PartCell.value = d.partCells.map PartCell.value) ↔
        InScope md ed d := by
  have hscope := h.scope
  cases hpartition : E.partition with
  | none =>
    rw [hpartition] at hscope
    obtain ⟨specId, hspec, hunpartitioned⟩ := hscope
    exact iff_of_true nofun ⟨specId, hspec, .inl hunpartitioned⟩
  | some p =>
    rw [hpartition] at hscope
    obtain ⟨specId, cells⟩ := p
    obtain ⟨hspec, hpartitioned, rfl, -⟩ := hscope
    constructor
    · intro happlies
      exact ⟨specId, hspec, .inr (happlies specId _ rfl)⟩
    · intro ⟨specId', hspec', hor⟩ specId'' cells' heq
      obtain ⟨rfl, rfl⟩ := Prod.ext_iff.mp (Option.some.inj heq)
      obtain rfl := Option.some.inj (hspec.symm.trans hspec')
      refine hor.resolve_left fun hunpartitioned => ?_
      rw [hpartitioned] at hunpartitioned
      cases hunpartitioned

/-- **The rows of a snapshot.**  When the scan returns, it has returned for each live data file, in
their order, the rows of the file that are not deleted. -/
theorem scanCore_rows {hash : CString × Bool → ℕ} {atts : List Att} {ids : List ℕ}
    {out : List (List Row)}
    (h : scanCore coercionFunction coerceFn hashProc hash st md atts ids = .ok out) :
    List.Forall₂ (fun d rows => ∃ f raws del, st.file d.filePath = some f ∧
      fileRaws coercionFunction f atts ids md.nameMapping = some raws ∧
      (∀ i, i < raws.length → (del i = true ↔ Deleted coercionFunction coerceFn st md d f i)) ∧
      returnedRows coerceFn atts.length del 0 raws = some rows) (liveEntries 0 md) out := by
  unfold scanCore at h
  split at h
  · cases h
  · next c hwalk =>
    obtain ⟨hdata, hposdel, heqdel⟩ := iceWalkDataFiles_spec hwalk
    rw [hdata, hposdel, heqdel] at h
    split at h
    · cases h
    · next posdels hposdels =>
      split at h
      · cases h
      · next dvdels hdvs =>
        split at h
        · cases h
        · next eqdels heqdels =>
          have hread := iceReadEqDeletes_spec heqdels
          have hof : ∀ E ∈ eqdels, ∃ ed ∈ liveEntries 2 md,
            EqDelOf coercionFunction coerceFn hashProc st md ed E := by
            intro E hE
            obtain ⟨k, hk⟩ := mem_iff_getElem?.mp hE
            obtain ⟨ed, hed, hok⟩ := exists_of_forall₂ hread.flip hk
            exact ⟨ed, mem_of_mem_filter (mem_of_getElem? hed), hok⟩
          have hcells : ∀ E ∈ eqdels, ∀ specId cells, E.partition = some (specId, cells) →
              icePartIncomparable cells = false := by
            intro E hE specId cells hpartition
            obtain ⟨ed, -, hok⟩ := hof E hE
            have hscope := hok.scope
            rw [hpartition] at hscope
            exact hscope.2.2.2
          refine ((forall₂_and_left _ _).mpr ⟨fun d hd => hd, scanFiles_spec h⟩).imp ?_
          intro d rows ⟨hd, elig, f, helig, hf, hscan⟩
          have helig' := eligible_spec helig hcells
          have hok : ∀ E ∈ elig, EqDelOk md.fields E := by
            intro E hE
            obtain ⟨ed, -, hed⟩ := hof E ((helig' E).mp hE).1
            exact hed.ok
          obtain ⟨hprobe, raws, hraws, hreturned⟩ := (scanFile_eq_ok_iff hok).mp hscan
          refine ⟨f, raws, _, hf, hraws, fun i hi => ?_, hreturned⟩
          rw [Bool.or_eq_true, decide_eq_true_iff, mem_positionSkip_iff hposdels hdvs, any_eq_true]
          refine or_congr_right ?_
          have hmatches : ∀ E ∈ elig, ∀ ed, EqDelOf coercionFunction coerceFn hashProc st md ed E →
              (eqMatches hashProc E (fieldValues coercionFunction coerceFn f E.cols i) = true ↔
                EqualsRow coercionFunction coerceFn st md ed f i) := by
            intro E hE ed hed
            obtain ⟨vals, hvals⟩ := hprobe (ne_nil_of_mem hE)
            refine hed.matches_iff hvals (fun c hc => (mem_unionCols hok).mpr ⟨E, hE, hc⟩) ?_
            rw [readColumns_length hvals, ← fileRaws_length hraws]
            exact hi
          constructor
          · intro ⟨E, hE, hmatch⟩
            obtain ⟨hmem, hseq, hscope⟩ := (helig' E).mp hE
            obtain ⟨ed, hed, hedE⟩ := hof E hmem
            exact ⟨ed, hed, hedE.seq ▸ hseq, hedE.scope_iff.mp hscope,
              (hmatches E hE ed hedE).mp hmatch⟩
          · intro ⟨ed, hed, hseq, hscope, hequals⟩
            -- the delete is newer than a data file, so that it was read
            have hkept : ed ∈ (liveEntries 2 md).filter fun ed =>
                !((liveEntries 0 md).map IceEntry.seq).min?.all (ed.seq ≤ ·) := by
              refine mem_filter.mpr ⟨hed, ?_⟩
              have hmem : d.seq ∈ (liveEntries 0 md).map IceEntry.seq := mem_map_of_mem hd
              cases hmin : ((liveEntries 0 md).map IceEntry.seq).min? with
              | none => simp [min?_eq_none_iff.mp hmin] at hmem
              | some least =>
                have hle := (min?_eq_some_iff.mp hmin).2 d.seq hmem
                simp only [Option.all_some, Bool.not_eq_true', decide_eq_false_iff_not]
                omega
            obtain ⟨k, hk⟩ := mem_iff_getElem?.mp hkept
            obtain ⟨E, hE, hedE⟩ := exists_of_forall₂ hread hk
            have hE' : E ∈ elig :=
              (helig' E).mpr ⟨mem_of_getElem? hE, hedE.seq.symm ▸ hseq, hedE.scope_iff.mpr hscope⟩
            exact ⟨E, hE', (hmatches E hE' ed hedE).mpr hequals⟩

/-- The data file `d` has the values 5, 7 and 9, and `g` has 7 and 8.  The position delete `p` names
the first row of `d`, a deletion vector in `v` the second one of `g`, and the equality delete `e`
has the value 7. -/
def deletedFiles : Store where
  file path :=
    if path = ascii "d" then some
      (plainFile [1] (fun _ => .int32) (fun _ => [.int 5, .int 7, .int 9]) 3)
    else if path = ascii "g" then some
      (plainFile [1] (fun _ => .int32) (fun _ => [.int 7, .int 8]) 2)
    else if path = ascii "p" then
      some (plainFile [2147483546, 2147483545] (fun leaf => if leaf = 0 then .byteArray else .int64)
        (fun leaf => if leaf = 0 then [.text (ascii "file://d")] else [.int 0]) 1)
    else if path = ascii "e" then some (plainFile [1] (fun _ => .int32) (fun _ => [.int 7]) 1)
    else none
  puffin path offset size _ := if path = ascii "v" ∧ offset = 4 ∧ size = 40 then some [1] else none

/-- The tuple of a partition by one number. -/
def oneCell (n : ℤ) : List PartCell := [⟨true, false, false, n, []⟩]

/-- A snapshot of these files.  `d` and `e` are in one partition, `g` is in another; the deletes
inherit the sequence number of their manifest. -/
def partitionedEntries : Metadata where
  formatVersion := 3
  specs := [⟨0, some 1⟩]
  fields := [⟨1, some "int"⟩]
  nameMapping := []
  manifests := some [
    ⟨0, some 1, some 0, some [
      ⟨0, 0, some (ascii "d"), none, true, some 1, [], oneCell 1, none, none, none, 3⟩,
      ⟨0, 0, some (ascii "g"), none, true, some 1, [], oneCell 2, none, none, none, 2⟩]⟩,
    ⟨1, some 2, some 0, some [
      ⟨1, 1, some (ascii "p"), none, true, none, [], oneCell 1, none, none, none, 1⟩,
      ⟨1, 1, some (ascii "v"), some (ascii "puffin"), true, none, [], oneCell 2,
        some (ascii "file://g"), some 4, some 40, 1⟩,
      ⟨2, 1, some (ascii "e"), none, true, none, [1], oneCell 1, none, none, none, 1⟩]⟩]

/-- The equality delete leaves the 7 of the other partition. -/
theorem scanCore_rows_partitionedEntries :
    List.Forall₂ (fun d rows => ∃ f raws del, deletedFiles.file d.filePath = some f ∧
        fileRaws (fun _ => false) f [plainAtt .int4] [1] partitionedEntries.nameMapping =
          some raws ∧
        (∀ i, i < raws.length → (del i = true ↔
          Deleted (fun _ => false) (fun _ _ v => some v) deletedFiles partitionedEntries d f i)) ∧
        returnedRows (fun _ _ v => some v) 1 del 0 raws = some rows)
      (liveEntries 0 partitionedEntries) [[[some (.int 9)]], [[some (.int 7)]]] :=
  @scanCore_rows (fun _ => false) (fun _ _ v => some v)
    (fun _ _ => 0) deletedFiles partitionedEntries
    (fun _ => 0) [plainAtt .int4] [1] _ (by rfl)

end PgColumnar.Iceberg
