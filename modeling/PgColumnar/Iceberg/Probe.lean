import PgColumnar.Iceberg.Columns

/-!
# The probe for equality deletes

Equality deletes are found by a read of the data file of its own, for the columns that they compare
(`columnar_iceberg.c`).  This read asks for columns that the file carries under their field ids.
The read of the output also takes a column whose id only the name mapping gives, and a column that
the file does not have as null.

## Main definitions

* `eqMatches` — a delete matches a row of the file.

## Main results

* `scanFile_eq_ok_iff` — the rows that a scan returns.
* `probe_sees` — the probe and the output read the same rows.
-/

namespace PgColumnar.Iceberg

open Bytes Parquet List

section

variable (coercionFunction : TypeOid → Bool) (coerceFn : TypeOid → ℤ → Datum → Option Datum)
  (hashProc : TypeOid → Datum → BitVec 32)

/-- The rows of a file before a deletion, as the read of the output decodes them. -/
def fileRaws (f : DataFile) (atts : List Att) (ids : List ℕ) (nm : NameMapping) :
    Option (List RawRow) :=
  (buildImpTargetsByFieldId coercionFunction f atts ids nm true).toOption.bind fun tops =>
    rawGroups tops f.groups

/-- The values of the columns at an ordinal. -/
def fieldValues (f : DataFile) (cols : List (ℕ × TypeOid)) (i : ℕ) : List (Option Datum) :=
  cols.map fun c => (fieldValue coercionFunction coerceFn f c i).join

/-- A delete matches the values of its columns. -/
def eqMatches (E : IceEqDel) (vals : List (Option Datum)) : Bool :=
  iceEqFileMatches hashProc E (List.range vals.length) vals

/-- The file carries the columns under their field ids. -/
def Native (f : DataFile) (cols : List (ℕ × TypeOid)) : Prop :=
  ∀ c ∈ cols, ∃ l ∈ f.leaves, l.fieldId = some c.1

/-- The columns of a delete are those of the current schema, and there is one. -/
structure EqDelOk (fields : List SchemaField) (E : IceEqDel) : Prop where
  cols_ne : E.cols ≠ []
  types : ∀ c ∈ E.cols, iceEqColType fields c.1 = .ok c.2

end

variable {coercionFunction : TypeOid → Bool} {coerceFn : TypeOid → ℤ → Datum → Option Datum}
  {hashProc : TypeOid → Datum → BitVec 32} {f : DataFile} {atts : List Att} {ids : List ℕ}
  {nm : NameMapping}
  {fields : List SchemaField} {elig : List IceEqDel} {rows : List Row}

/-! ### The set of ordinals -/

theorem mem_destutter' {l : List ℕ} {a b : ℕ} : a ∈ l.destutter' (· ≠ ·) b ↔ a = b ∨ a ∈ l := by
  induction l generalizing b with
  | nil => simp
  | cons c l ih =>
    rw [destutter'_cons]
    by_cases h : b ≠ c
    · rw [if_pos h, mem_cons, ih, mem_cons]
    · rw [if_neg h, ih, mem_cons]
      rw [not_not] at h
      rw [h]
      tauto

theorem mem_destutter {l : List ℕ} {a : ℕ} : a ∈ l.destutter (· ≠ ·) ↔ a ∈ l := by
  cases l with
  | nil => simp
  | cons b l => rw [destutter_cons', mem_destutter', mem_cons]

theorem mem_sortSkip {skip : List ℕ} {a : ℕ} : a ∈ sortSkip skip ↔ a ∈ skip := by
  unfold sortSkip
  split
  · rw [mem_destutter, mem_insertionSort]
  · rfl

theorem sortSkip_pairwise (skip : List ℕ) : (sortSkip skip).Pairwise (· < ·) := by
  unfold sortSkip
  split
  · -- sorted, and no two neighbours are equal
    have hle := (pairwise_insertionSort (· ≤ ·) skip).sublist
      (destutter_sublist (· ≠ ·) (skip.insertionSort (· ≤ ·)))
    have hne := isChain_destutter (· ≠ ·) (skip.insertionSort (· ≤ ·))
    rw [← isChain_iff_pairwise, isChain_iff_getElem]
    intro i hi
    exact lt_of_le_of_ne (pairwise_iff_getElem.mp hle i (i + 1) _ hi (Nat.lt_succ_self i))
      (isChain_iff_getElem.mp hne i hi)
  · next hlen =>
    match skip, hlen with
    | [], _ => exact List.Pairwise.nil
    | [a], _ => exact pairwise_singleton _ _
    | _ :: _ :: _, hlen => simp at hlen

/-! ### The number of rows -/

theorem rawGroups_length {tops : List Top} {gs : List RowGroup} {raws : List RawRow}
    (h : rawGroups tops gs = some raws) :
    raws.length = (gs.map RowGroup.numRows).sum := by
  induction gs generalizing raws with
  | nil =>
    cases h
    rfl
  | cons g gs ih =>
    obtain ⟨cs, -, hrest⟩ := Option.bind_eq_some_iff.mp h
    obtain ⟨first, hfirst, hmore⟩ := Option.bind_eq_some_iff.mp hrest
    obtain ⟨more, hmore', rfl⟩ := Option.map_eq_some_iff.mp hmore
    rw [length_append, rawRows_length hfirst, ih hmore', map_cons, sum_cons]

theorem kept_length {α : Type} {del : ℕ → Bool} {base : ℕ} (l : List α) :
    (kept del base l).length + (List.range' base l.length).countP del = l.length := by
  induction l generalizing base with
  | nil => rfl
  | cons a l ih =>
    have hrest := @ih (base + 1)
    rw [kept_cons, length_cons, range'_succ, countP_cons]
    cases del base <;> simp <;> omega

/-- The check after the two reads of a data file. -/
theorem returned_count {natts : ℕ} {skip : List ℕ} {raws : List RawRow}
    (hskip : skip.Pairwise (· < ·))
    (h : returnedRows coerceFn natts (fun i => decide (i ∈ skip)) 0 raws = some rows) :
    (rows.length : ℤ) = raws.length - skip.countP (· < raws.length) := by
  have hrows : rows.length = (kept (fun i => decide (i ∈ skip)) 0 raws).length :=
    (MapM.eq_some_iff.mp h).length_eq.symm
  have hlen := @kept_length _ (fun i => decide (i ∈ skip)) 0 raws
  -- the ordinals in range are those of the set
  have hperm : ((List.range' 0 raws.length).filter fun i => i ∈ skip).Perm
    (skip.filter (· < raws.length)) := by
    refine (perm_ext_iff_of_nodup (List.Nodup.filter _ nodup_range') ?_).mpr fun i => ?_
    · exact (hskip.imp fun h => ne_of_lt h).filter _
    · simp [mem_range'_1, and_comm]
  have hcount := hperm.length_eq
  rw [← countP_eq_length_filter, ← countP_eq_length_filter] at hcount
  omega

/-! ### The columns of the probe -/

theorem mem_foldl_addCol {l u : List (ℕ × TypeOid)} {c : ℕ × TypeOid} (h : c ∈ l.foldl addCol u) :
    c ∈ u ∨ c ∈ l := by
  induction l generalizing u with
  | nil => exact .inl h
  | cons d l ih =>
    rcases ih h with hmem | hmem
    · unfold addCol at hmem
      split at hmem
      · exact .inl hmem
      · rcases mem_append.mp hmem with hmem | hmem
        · exact .inl hmem
        · exact .inr (mem_singleton.mp hmem ▸ mem_cons_self)
    · exact .inr (mem_cons_of_mem _ hmem)

theorem exists_foldl_addCol {l u : List (ℕ × TypeOid)} {id : ℕ}
    (h : id ∈ u.map (·.1) ∨ id ∈ l.map (·.1)) :
    id ∈ (l.foldl addCol u).map (·.1) := by
  induction l generalizing u with
  | nil => exact h.resolve_right (by simp)
  | cons d l ih =>
    refine ih ?_
    unfold addCol
    by_cases hany : (u.any fun e => e.1 = d.1) = true
    · rw [if_pos hany]
      rcases h with hu | hl
      · exact .inl hu
      · rcases mem_cons.mp hl with rfl | hl
        · obtain ⟨e, he, heq⟩ := any_eq_true.mp hany
          exact .inl (mem_map.mpr ⟨e, he, of_decide_eq_true heq⟩)
        · exact .inr hl
    · rw [if_neg hany, map_append, mem_append]
      rcases h with hu | hl
      · exact .inl (.inl hu)
      · rcases mem_cons.mp hl with rfl | hl
        · exact .inl (.inr (by simp))
        · exact .inr hl

theorem EqDelOk.eq_of_id {E E' : IceEqDel} (h : EqDelOk fields E) (h' : EqDelOk fields E')
    {c c' : ℕ × TypeOid}
    (hc : c ∈ E.cols) (hc' : c' ∈ E'.cols) (hid : c.1 = c'.1) : c = c' := by
  have htype := h.types c hc
  rw [hid, h'.types c' hc'] at htype
  exact Prod.ext hid (Except.ok.inj htype).symm

/-- The probe reads the columns of the deletes. -/
theorem mem_unionCols (h : ∀ E ∈ elig, EqDelOk fields E) {c : ℕ × TypeOid} :
    c ∈ unionCols elig ↔ ∃ E ∈ elig, c ∈ E.cols := by
  constructor
  · intro hc
    exact mem_flatMap.mp ((mem_foldl_addCol hc).resolve_left not_mem_nil)
  · intro ⟨E, hE, hc⟩
    have hmem : c ∈ elig.flatMap IceEqDel.cols := mem_flatMap.mpr ⟨E, hE, hc⟩
    obtain ⟨d, hd, hid⟩ :=
      mem_map.mp (@exists_foldl_addCol _ [] _ (.inr (mem_map_of_mem (f := (·.1)) hmem)))
    obtain ⟨E', hE', hd'⟩ := mem_flatMap.mp ((mem_foldl_addCol hd).resolve_left not_mem_nil)
    -- one id, one type
    rw [(h E hE).eq_of_id (h E' hE') hc hd' hid.symm]
    exact hd

theorem getElem?_findIdx {u : List (ℕ × TypeOid)} {id : ℕ} (h : id ∈ u.map (·.1)) :
    ∃ d, u[u.findIdx fun d => d.1 = id]? = some d ∧ d.1 = id := by
  obtain ⟨d, hd, hid⟩ := mem_map.mp h
  have hlt : (u.findIdx fun d => d.1 = id) < u.length :=
    findIdx_lt_length_of_exists ⟨d, hd, by simp [hid]⟩
  refine ⟨_, getElem?_eq_getElem hlt, ?_⟩
  have hfound := findIdx_getElem (w := hlt)
  exact of_decide_eq_true hfound

/-- A delete is compared with the values of its own columns. -/
theorem pick_unionMap (h : ∀ E ∈ elig, EqDelOk fields E)
    (hread : readParquetByFieldId coercionFunction coerceFn f
      ((unionCols elig).map fun c => plainAtt c.2) ((unionCols elig).map (·.1)) = .ok rows)
    {i : ℕ} {row : Row} (hrow : rows[i]? = some row) {E : IceEqDel} (hE : E ∈ elig) :
    pick (unionMap (unionCols elig) E) row = fieldValues coercionFunction coerceFn f E.cols i := by
  unfold pick unionMap fieldValues
  rw [map_map]
  refine map_congr_left fun c hc => ?_
  have hmem : c ∈ unionCols elig := (mem_unionCols h).mpr ⟨E, hE, hc⟩
  obtain ⟨d, hd, hid⟩ := getElem?_findIdx (mem_map_of_mem (f := (·.1)) hmem)
  obtain ⟨E', hE', hd'⟩ := (mem_unionCols h).mp (mem_of_getElem? hd)
  have heq : c = d := (h E hE).eq_of_id (h E' hE') hc hd' hid.symm
  rw [← heq] at hd
  rw [Function.comp_apply, fieldValue_of_read hread hd, hrow]
  rfl

theorem iceEqFileMatches_eq {E : IceEqDel} {mape : List ℕ} {dv : List (Option Datum)} :
    iceEqFileMatches hashProc E mape dv = eqMatches hashProc E (pick mape dv) := by
  have hpick : pick (List.range (pick mape dv).length) (pick mape dv) = pick mape dv := by
    refine ext_getElem (by simp [pick]) fun k hk hk' => ?_
    have hlt : k < mape.length := by simpa [pick] using hk'
    simp [pick, hlt]
  unfold eqMatches iceEqFileMatches
  rw [hpick]

/-! ### The scan of a file -/

/-- The read of the output without the ordinals of a set. -/
theorem readNM_eq_ok_iff {skip : List ℕ} (hskip : skip.Pairwise (· < ·)) :
    readParquetByFieldIdNM coercionFunction coerceFn f atts ids nm skip none = .ok rows ↔
      ∃ raws, fileRaws coercionFunction f atts ids nm = some raws ∧
        returnedRows coerceFn atts.length (fun i => decide (i ∈ skip)) 0 raws = some rows := by
  unfold readParquetByFieldIdNM readFileInto fileRaws
  cases buildImpTargetsByFieldId coercionFunction f atts ids nm true with
  | error e => simp [Except.toOption]
  | ok tops =>
    simp only [pqReadRows, neededTops_none]
    exact readGroups_eq_ok_iff hskip

theorem fileRaws_length {raws : List RawRow}
    (h : fileRaws coercionFunction f atts ids nm = some raws) :
    raws.length = (f.groups.map RowGroup.numRows).sum := by
  obtain ⟨tops, -, hraws⟩ := Option.bind_eq_some_iff.mp h
  exact rawGroups_length hraws

theorem readColumns_length {cols : List (ℕ × TypeOid)}
    (h : readParquetByFieldId coercionFunction coerceFn f
      (cols.map fun c => plainAtt c.2) (cols.map (·.1)) = .ok rows) :
    rows.length = (f.groups.map RowGroup.numRows).sum := by
  obtain ⟨tops, raws, -, -, hraws, hrows⟩ := readColumns_spec h
  rw [← hrows.length_eq, rawGroups_length hraws]

/-- The ordinals that the probe finds. -/
theorem mem_matched {l : List Row} {p : Row → Bool} {i : ℕ} :
    i ∈ (l.zipIdx.filter fun r => p r.1).map (·.2) ↔ ∃ row, l[i]? = some row ∧ p row = true := by
  constructor
  · intro h
    obtain ⟨⟨row, j⟩, hr, rfl⟩ := mem_map.mp h
    obtain ⟨hmem, hp⟩ := mem_filter.mp hr
    exact ⟨row, mk_mem_zipIdx_iff_getElem?.mp hmem, hp⟩
  · intro ⟨row, hrow, hp⟩
    exact mem_map.mpr ⟨(row, i), mem_filter.mpr ⟨mk_mem_zipIdx_iff_getElem?.mpr hrow, hp⟩, rfl⟩

/-- **The scan of a data file** returns the rows that no position and no eligible delete drops, if
the probe can read the columns that the deletes compare. -/
theorem scanFile_eq_ok_iff {path : CString} {skip : List ℕ} (h : ∀ E ∈ elig, EqDelOk fields E) :
    scanFile coercionFunction coerceFn hashProc f atts ids nm path skip elig = .ok rows ↔
      (elig ≠ [] → ∃ vals, readParquetByFieldId coercionFunction coerceFn f
        ((unionCols elig).map fun c => plainAtt c.2) ((unionCols elig).map (·.1)) = .ok vals) ∧
      ∃ raws, fileRaws coercionFunction f atts ids nm = some raws ∧
        returnedRows coerceFn atts.length (fun i => decide (i ∈ skip) ||
          elig.any fun E => eqMatches hashProc E (fieldValues coercionFunction coerceFn f E.cols i))
            0 raws = some rows := by
  unfold scanFile
  by_cases hnil : elig = []
  · subst hnil
    have hread := @readNM_eq_ok_iff coercionFunction coerceFn f atts ids nm rows _
      (sortSkip_pairwise skip)
    simp only [mem_sortSkip] at hread
    rw [if_pos rfl]
    simp only [ne_eq, not_true_eq_false, false_imp_iff, true_and, any_nil, Bool.or_false, ← hread]
    cases readParquetByFieldIdNM coercionFunction coerceFn f atts ids nm (sortSkip skip) none with
    | error e | ok rows' => simp
  · rw [if_neg hnil]
    unfold iceEqProbe
    cases hprobe : readParquetByFieldId coercionFunction coerceFn f
      ((unionCols elig).map fun c => plainAtt c.2)
        ((unionCols elig).map (·.1)) with
    | error e => simp [hnil]
    | ok vals =>
      have hmatched : ∀ i, i < vals.length → (i ∈ (vals.zipIdx.filter fun r =>
            elig.any fun E => iceEqFileMatches hashProc E
              (unionMap (unionCols elig) E) r.1).map (·.2) ↔
          elig.any (fun E => eqMatches hashProc E
            (fieldValues coercionFunction coerceFn f E.cols i)) = true) := by
        intro i hi
        have hrow := getElem?_eq_getElem hi
        refine (@mem_matched vals (fun row =>
          elig.any fun E => iceEqFileMatches hashProc E (unionMap (unionCols elig) E) row)
            i).trans ?_
        simp only [hrow, Option.some.injEq, exists_eq_left', any_eq_true]
        refine exists_congr fun E => and_congr_right fun hE => ?_
        rw [iceEqFileMatches_eq, pick_unionMap h hprobe hrow hE]
      generalize hm : (vals.zipIdx.filter fun r =>
        elig.any fun E => iceEqFileMatches hashProc E (unionMap (unionCols elig) E) r.1).map (·.2) =
          matched at hmatched
      have hread : ∀ rows', readParquetByFieldIdNM coercionFunction coerceFn f atts ids nm
        (sortSkip (skip ++ matched))
            none = .ok rows' ↔ ∃ raws, fileRaws coercionFunction f atts ids nm = some raws ∧
          returnedRows coerceFn atts.length (fun i => decide (i ∈ skip) ||
            elig.any fun E => eqMatches hashProc E
              (fieldValues coercionFunction coerceFn f E.cols i)) 0 raws = some rows' := by
        intro rows'
        rw [readNM_eq_ok_iff (sortSkip_pairwise _)]
        refine exists_congr fun raws => and_congr_right fun hraws => ?_
        rw [returnedRows_congr fun i _ hi => ?_]
        have hlt : i < vals.length := by
          rw [readColumns_length hprobe, ← fileRaws_length hraws]
          omega
        rw [Bool.eq_iff_iff, decide_eq_true_iff, mem_sortSkip, mem_append, hmatched i hlt,
          Bool.or_eq_true,
          decide_eq_true_iff]
      simp only [hm, ne_eq, hnil, not_false_eq_true, Except.ok.injEq, exists_eq', forall_const,
        true_and]
      rw [← hread rows]
      cases hout : readParquetByFieldIdNM coercionFunction coerceFn f atts ids nm
        (sortSkip (skip ++ matched)) none with
      | error e => simp
      | ok rows' =>
        -- the two reads have the same number of rows
        obtain ⟨raws, hraws, hreturned⟩ := (readNM_eq_ok_iff (sortSkip_pairwise _)).mp hout
        have hcount := returned_count (sortSkip_pairwise _) hreturned
        rw [fileRaws_length hraws, ← readColumns_length hprobe] at hcount
        simp [hcount]

/-! ### Two reads of one file -/

/-- Without more of its rows, a file is returned as well. -/
theorem returnedRows_mono {natts base : ℕ} {del del' : ℕ → Bool} {raws : List RawRow}
    (hdel : ∀ i, del i = true → del' i = true)
    (h : returnedRows coerceFn natts del base raws = some rows) :
    ∃ rows', returnedRows coerceFn natts del' base raws = some rows' := by
  induction raws generalizing base rows with
  | nil => exact ⟨[], rfl⟩
  | cons raw raws ih =>
    rw [returnedRows_cons] at h ⊢
    cases hbase : del base with
    | true =>
      rw [hbase, if_pos rfl] at h
      rw [hdel base hbase, if_pos rfl]
      exact ih h
    | false =>
      rw [hbase, if_neg Bool.false_ne_true] at h
      obtain ⟨row, hrow, hrest⟩ := Option.bind_eq_some_iff.mp h
      obtain ⟨more, hmore, -⟩ := Option.map_eq_some_iff.mp hrest
      obtain ⟨rows', hrows'⟩ := ih hmore
      split
      · exact ⟨rows', hrows'⟩
      · exact ⟨row :: rows', by simp [hrow, hrows']⟩

theorem readNM_eq_of_native {cols : List (ℕ × TypeOid)} (hne : cols ≠ []) (h : Native f cols) :
    readParquetByFieldIdNM coercionFunction coerceFn f (cols.map fun c => plainAtt c.2)
      (cols.map (·.1)) nm [] none =
      readParquetByFieldId coercionFunction coerceFn f (cols.map fun c => plainAtt c.2)
        (cols.map (·.1)) := by
  unfold readParquetByFieldIdNM readParquetByFieldId readFileInto
  rw [build_eq_of_native hne h]

theorem native_of_read {cols : List (ℕ × TypeOid)}
    (h : readParquetByFieldId coercionFunction coerceFn f
      (cols.map fun c => plainAtt c.2) (cols.map (·.1)) = .ok rows) : Native f cols := by
  unfold readParquetByFieldId readFileInto at h
  split at h
  · cases h
  · next tops hbuild => exact native_of_build hbuild

theorem unionCols_ne_nil (hne : elig ≠ []) (h : ∀ E ∈ elig, EqDelOk fields E) :
    unionCols elig ≠ [] := by
  obtain ⟨E, l, rfl⟩ := exists_cons_of_ne_nil hne
  obtain ⟨c, cs, hcols⟩ := exists_cons_of_ne_nil (h E mem_cons_self).cols_ne
  have hmem : c ∈ unionCols (E :: l) :=
    (mem_unionCols h).mpr ⟨E, mem_cons_self, by rw [hcols]; exact mem_cons_self⟩
  exact ne_nil_of_mem hmem

/-- A column that the file does not have itself makes the scan of the file fail. -/
theorem scanFile_error {path : CString} {skip : List ℕ} {E : IceEqDel}
    (h : ∀ E ∈ elig, EqDelOk fields E)
    (hE : E ∈ elig) (hlacks : ¬ Native f E.cols) :
    ∃ e, scanFile coercionFunction coerceFn hashProc f atts ids nm path skip elig = .error e := by
  cases hscan : scanFile coercionFunction coerceFn hashProc f atts ids nm path skip elig with
  | error e => exact ⟨e, rfl⟩
  | ok rows =>
    obtain ⟨hprobe, -⟩ := (scanFile_eq_ok_iff h).mp hscan
    obtain ⟨vals, hread⟩ := hprobe (ne_nil_of_mem hE)
    exact (hlacks fun c hc => native_of_read hread c ((mem_unionCols h).mpr ⟨E, hE, hc⟩)).elim

/-- **The probe and the read of the output.**  If the file carries every equality column under its
field id, then the probe has the values of a read with the name mapping, and one delete more makes a
scan return fewer rows rather than fail.  If the file lacks one, the scan fails. -/
theorem probe_sees (hne : elig ≠ []) (h : ∀ E ∈ elig, EqDelOk fields E) :
    ((∀ E ∈ elig, Native f E.cols) → ∀ vals, readParquetByFieldIdNM coercionFunction coerceFn f
        ((unionCols elig).map fun c => plainAtt c.2) ((unionCols elig).map (·.1)) nm
          [] none = .ok vals →
      readParquetByFieldId coercionFunction coerceFn f ((unionCols elig).map fun c => plainAtt c.2)
        ((unionCols elig).map (·.1)) = .ok vals ∧
      ∀ l₁ E l₂, elig = l₁ ++ E :: l₂ → ∀ atts ids path skip rows,
        scanFile coercionFunction coerceFn hashProc f atts ids nm path skip (l₁ ++ l₂) = .ok rows →
        ∃ rows', scanFile coercionFunction coerceFn hashProc f atts ids nm path skip
          elig = .ok rows' ∧
          ∃ raws del, fileRaws coercionFunction f atts ids nm = some raws ∧
            returnedRows coerceFn atts.length del 0 raws = some rows ∧
            returnedRows coerceFn atts.length (fun i => del i ||
              vals[i]?.any (iceEqFileMatches hashProc E (unionMap (unionCols elig) E))) 0 raws =
                some rows') ∧
    ∀ E ∈ elig, ∀ c ∈ E.cols, carriers f nm c.1 = [] → ∀ atts ids path skip,
      ∃ e, scanFile coercionFunction coerceFn hashProc f atts ids nm path skip elig = .error e := by
  refine ⟨fun hnative vals hvals => ?_, fun E hE c hc hlacks atts ids path skip => ?_⟩
  swap
  · refine scanFile_error h hE fun hnative => ?_
    rw [carriers_of_native (hnative c hc)] at hlacks
    exact carriers_ne_nil_iff.mpr (hnative c hc) hlacks
  have hunion : Native f (unionCols elig) := by
    intro c hc
    obtain ⟨E, hE, hc'⟩ := (mem_unionCols h).mp hc
    exact hnative E hE c hc'
  have hread : readParquetByFieldId coercionFunction coerceFn f
    ((unionCols elig).map fun c => plainAtt c.2)
      ((unionCols elig).map (·.1)) = .ok vals := by
    rw [← readNM_eq_of_native (unionCols_ne_nil hne h) hunion]
    exact hvals
  refine ⟨hread, fun l₁ E l₂ hsplit atts ids path skip rows hscan => ?_⟩
  have hmem : ∀ E' ∈ l₁ ++ l₂, E' ∈ elig := by
    intro E' hE'
    rw [hsplit]
    rcases mem_append.mp hE' with hE' | hE'
    · exact mem_append_left _ hE'
    · exact mem_append_right _ (mem_cons_of_mem _ hE')
  have hE : E ∈ elig := by
    rw [hsplit]
    exact mem_append_right _ mem_cons_self
  obtain ⟨-, raws, hraws, hrows⟩ := (scanFile_eq_ok_iff fun E' hE' => h E' (hmem E' hE')).mp hscan
  let del : ℕ → Bool := fun i => decide (i ∈ skip) ||
    (l₁ ++ l₂).any fun E' => eqMatches hashProc E'
      (fieldValues coercionFunction coerceFn f E'.cols i)
  let del' : ℕ → Bool := fun i => del i ||
    vals[i]?.any (iceEqFileMatches hashProc E (unionMap (unionCols elig) E))
  obtain ⟨rows', hrows'⟩ : ∃ rows', returnedRows coerceFn atts.length del' 0 raws = some rows' :=
    returnedRows_mono (fun i hi => (Bool.or_eq_true _ _).mpr (.inl hi)) hrows
  refine ⟨rows', (scanFile_eq_ok_iff h).mpr ⟨fun _ => ⟨vals, hread⟩, raws, hraws, ?_⟩, raws, del,
    hraws, hrows, hrows'⟩
  rw [← hrows']
  refine returnedRows_congr fun i _ hi => ?_
  -- the delete matches the values of the row, as the probe has them
  have hlt : i < vals.length := by
    rw [readColumns_length hread, ← fileRaws_length hraws]
    omega
  have hrow := getElem?_eq_getElem hlt
  simp only [del', del, hrow, Option.any_some, iceEqFileMatches_eq, pick_unionMap h hread hrow hE]
  rw [hsplit]
  simp only [any_append, any_cons]
  cases decide (i ∈ skip) <;>
    cases l₁.any fun E' => eqMatches hashProc E'
      (fieldValues coercionFunction coerceFn f E'.cols i) <;>
    cases l₂.any fun E' => eqMatches hashProc E'
      (fieldValues coercionFunction coerceFn f E'.cols i) <;> simp

/-- A delete of the rows that have 7 in the column with the field id 2. -/
def sevenDelete : IceEqDel where
  seq := 2
  cols := [(2, .int4)]
  buckets := buildBuckets [⟨[some (.int 7)], iceEqHash (fun _ _ => 0) [(2, .int4)] [some (.int 7)]⟩]
  partition := none

/-- A file of one row group, whose columns have the field ids and the values. -/
def plainFile (ids : List ℕ) (phys : ℕ → PhysType) (chunks : ℕ → List Datum) (numRows : ℕ) :
    DataFile where
  leaves := ids.zipIdx.map fun r =>
    ⟨⟨⟨phys r.2, -1, .none, false, false, false, 0, 0, 0⟩, 1, 0⟩, some r.1, "c", 1⟩
  groupIds := []
  groups := [⟨numRows, fun leaf _ => some ⟨List.replicate numRows ⟨1, 0⟩, chunks leaf⟩⟩]

/-- Three rows, two of which have 7 in the second column. -/
def twoColumns : DataFile :=
  plainFile [1, 2] (fun _ => .int32)
    (fun leaf => if leaf = 0 then [.int 1, .int 2, .int 3] else [.int 7, .int 8, .int 7]) 3

theorem probe_sees_twoColumns :
    readParquetByFieldId (fun _ => false) (fun _ _ d => some d) twoColumns [plainAtt .int4] [2] =
        .ok [[some (.int 7)], [some (.int 8)], [some (.int 7)]] ∧
      ∃ rows', scanFile (fun _ => false) (fun _ _ d => some d) (fun _ _ => 0) twoColumns
        [plainAtt .int4] [1] [] [] [0] [sevenDelete] = .ok rows' := by
  have hok : ∀ E ∈ [sevenDelete], EqDelOk [⟨2, some "int"⟩] E := by
    intro E hE
    obtain rfl := mem_singleton.mp hE
    exact ⟨by decide, fun c hc => by obtain rfl := mem_singleton.mp hc; rfl⟩
  have hsees := @probe_sees (fun _ => false) (fun _ _ d => some d) (fun _ _ => 0) twoColumns []
    [⟨2, some "int"⟩] [sevenDelete] (by simp) hok
  have hnative : ∀ E ∈ [sevenDelete], Native twoColumns E.cols := by
    intro E hE c hc
    obtain rfl := mem_singleton.mp hE
    obtain rfl := mem_singleton.mp hc
    exact ⟨_, mem_cons_of_mem _ mem_cons_self, rfl⟩
  obtain ⟨hread, hscan⟩ := hsees.1 hnative [[some (.int 7)], [some (.int 8)], [some (.int 7)]]
    (by rfl)
  obtain ⟨rows', hrows', -⟩ := hscan [] sevenDelete [] rfl [plainAtt .int4] [1] [] [0]
    [[some (.int 2)], [some (.int 3)]] (by rfl)
  exact ⟨hread, rows', hrows'⟩

/-- A file with the field id 1 alone. -/
def firstColumn : DataFile where
  leaves := [⟨⟨⟨.int32, -1, .none, false, false, false, 0, 0, 0⟩, 1, 0⟩, some 1, "a", 1⟩]
  groupIds := []
  groups := [⟨1, fun _ _ => some ⟨[⟨1, 0⟩], [.int 5]⟩⟩]

/-- The file lacks the column of the delete: the read of the output has null there, and a scan that
returns the row fails with the delete. -/
theorem probe_ne_firstColumn :
    readParquetByFieldIdNM (fun _ => false) (fun _ _ d => some d) firstColumn [plainAtt .int4] [2]
      [] [] none =
      .ok [[none]] ∧
    readParquetByFieldId (fun _ => false) (fun _ _ d => some d) firstColumn [plainAtt .int4] [2] =
      .error (.absent 2) ∧
    scanFile (fun _ => false) (fun _ _ d => some d) (fun _ _ => 0) firstColumn [plainAtt .int4] [1]
      [] [] [] [] =
      .ok [[some (.int 5)]] ∧
    scanFile (fun _ => false) (fun _ _ d => some d) (fun _ _ => 0) firstColumn [plainAtt .int4] [1]
      [] [] []
      [sevenDelete] = .error (.read (.absent 2)) :=
  ⟨rfl, rfl, rfl, rfl⟩

end PgColumnar.Iceberg
