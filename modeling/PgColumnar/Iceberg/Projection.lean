import PgColumnar.Iceberg.Read

/-!
# Projection pushdown

A scan of an Iceberg foreign table decodes the columns that the query references
(`columnar_iceberg_fdw.c`).  The mask is made over the attributes of the table, and the reader looks
into it by the position of a column among those that the file has.  The two agree as long as no
attribute in front is dropped, or absent from the file.

## Main definitions

* `neededMask` — the columns that a scan asks for.

## Main results

* `rawGroups_kept` — with fewer columns the rows are those columns of the rows.
* `mask_eq_iff` — exactly when nothing referenced changes.
-/

namespace PgColumnar.Iceberg

open Parquet List
open Option (bind_eq_some_iff map_eq_some_iff)

/-- The mask of `icefdwBeginForeignScan`; 0 among the attribute numbers is a whole row. -/
def neededMask (natts : ℕ) (needed : List ℤ) : Option (List Bool) :=
  if needed = [] ∨ 0 ∈ needed then none
  else some ((List.range natts).map fun ci : ℕ => decide ((ci : ℤ) + 1 ∈ needed))

/-- The attribute with the index `a` is asked for. -/
def Referenced (needed : List ℤ) (a : ℕ) : Prop := needed = [] ∨ 0 ∈ needed ∨ (a : ℤ) + 1 ∈ needed

instance (needed : List ℤ) (a : ℕ) : Decidable (Referenced needed a) :=
  inferInstanceAs (Decidable (_ ∨ _))

/-- The attributes from `i` on whose field ids the file has; a dropped attribute has none. -/
def boundAtts (f : DataFile) (nm : NameMapping) : ℕ → List Att → List ℕ → List ℕ
  | _, [], _ => []
  | i, att :: atts, ids =>
    if att.dropped then boundAtts f nm (i + 1) atts ids
    else
      match ids with
      | [] => []
      | id :: ids =>
        if carriers f nm id = [] then boundAtts f nm (i + 1) atts ids
        else i :: boundAtts f nm (i + 1) atts ids

variable {coercionFunction : TypeOid → Bool} {coerceFn : TypeOid → ℤ → Datum → Option Datum}
  {f : DataFile} {nm : NameMapping} {atts : List Att} {ids : List ℕ} {tops : List Top}
  {del : ℕ → Bool}

/-! ### The binding -/

theorem boundAtts_sublist (i : ℕ) :
    (boundAtts f nm i atts ids).Sublist (List.range' i atts.length) := by
  induction atts generalizing i ids with
  | nil => exact .slnil
  | cons att atts ih =>
    rw [boundAtts.eq_def, length_cons, range'_succ]
    dsimp only
    split
    · exact (ih (i + 1)).cons i
    · cases ids with
      | nil => exact nil_sublist _
      | cons id ids =>
        dsimp only
        split
        · exact (ih (i + 1)).cons i
        · exact (ih (i + 1)).cons_cons i

/-- The columns that are bound are those that the file has. -/
theorem attnos_bindAtts {missingAsNull : Bool} {i : ℕ} {out : List Top}
    (h : bindAtts coercionFunction f nm missingAsNull i atts ids tops = .ok out) :
    out.map (·.attno) = tops.map (·.attno) ++ boundAtts f nm i atts ids := by
  induction atts generalizing i ids tops with
  | nil =>
    cases h
    simp [boundAtts]
  | cons att atts ih =>
    rw [bindAtts.eq_def] at h
    rw [boundAtts.eq_def]
    dsimp only at h ⊢
    split at h
    · next hdropped =>
      rw [if_pos hdropped]
      exact ih h
    · next hdropped =>
      rw [if_neg hdropped]
      cases ids with
      | nil => cases h
      | cons id ids =>
        dsimp only at h ⊢
        split at h
        · cases h
        · split at h
          · next hnone =>
            rw [if_pos hnone]
            split at h
            · cases h
            · split_ifs at h
              exact ih h
          · next j hone =>
            rw [if_neg (by rw [hone]; exact cons_ne_nil _ _)]
            split_ifs at h
            split at h
            · cases h
            · split at h
              · cases h
              · rw [ih h]
                simp
          · cases h

theorem attnos_build {missingAsNull : Bool}
    (h : buildImpTargetsByFieldId coercionFunction f atts ids nm missingAsNull = .ok tops) :
    tops.map (·.attno) = boundAtts f nm 0 atts ids := by
  unfold buildImpTargetsByFieldId at h
  split at h
  · cases h
  · split_ifs at h
    exact attnos_bindAtts h

/-! ### Fewer columns -/

theorem neededTops_eq {needTop : Option (List Bool)} : neededTops needTop tops =
    kept (fun i => !(needTop.elim true fun mask => mask[i]?.getD false)) 0 tops := by
  simp [neededTops, kept]

theorem mem_of_mem_kept {α : Type} {base : ℕ} {l : List α} {a : α} (h : a ∈ kept del base l) :
    ∃ i, l[i]? = some a ∧ del (base + i) = false := by
  unfold kept at h
  obtain ⟨⟨b, i⟩, hb, rfl⟩ := mem_map.mp h
  obtain ⟨hmem, hdel⟩ := mem_filter.mp hb
  obtain ⟨hle, hlt, heq⟩ := mem_zipIdx hmem
  refine ⟨i - base, ?_, ?_⟩
  · rw [List.getElem?_eq_some_iff]
    exact ⟨by omega, heq.symm⟩
  · rw [Nat.add_sub_cancel' hle]
    simpa using hdel

theorem mem_kept {α : Type} {base i : ℕ} {l : List α} {a : α} (ha : l[i]? = some a)
    (hdel : del (base + i) = false) :
    a ∈ kept del base l := by
  unfold kept
  refine mem_map.mpr ⟨(a, base + i), mem_filter.mpr ⟨?_, by simp [hdel]⟩, rfl⟩
  rw [mem_zipIdx_iff_le_and_getElem?_sub]
  exact ⟨Nat.le_add_right _ _, by rwa [Nat.add_sub_cancel_left]⟩

theorem kept_sublist {α : Type} {base : ℕ} (l : List α) : (kept del base l).Sublist l := by
  induction l generalizing base with
  | nil => exact .slnil
  | cons a l ih =>
    rw [kept_cons]
    split
    · exact ih.cons a
    · exact ih.cons_cons a

theorem decodeTops_kept {g : RowGroup} {base : ℕ} {cs : List (Top × LeafCursor)}
    (h : decodeTops g tops = .ok cs) :
    decodeTops g (kept del base tops) = .ok (kept del base cs) ∧ cs.map (·.1) = tops := by
  induction tops generalizing base cs with
  | nil =>
    cases h
    exact ⟨rfl, rfl⟩
  | cons t tops ih =>
    rw [decodeTops] at h
    cases hchunk : g.chunk t.leaf t.imp.plan with
    | none => simp [hchunk] at h
    | some c =>
      cases hrest : decodeTops g tops with
      | error e => simp [hchunk, hrest] at h
      | ok rest =>
        simp only [hchunk, hrest, Except.ok.injEq] at h
        subst h
        obtain ⟨hkept, hfst⟩ := @ih (base + 1) rest hrest
        refine ⟨?_, by rw [map_cons, hfst]⟩
        rw [kept_cons, kept_cons]
        split
        · exact hkept
        · simp [decodeTops, hchunk, hkept]

theorem rawRow_kept {base : ℕ} {cs cs' : List (Top × LeafCursor)} {raw : RawRow}
    (h : rawRow cs = some (raw, cs')) :
    rawRow (kept del base cs) = some (kept del base raw, kept del base cs') := by
  induction cs generalizing base raw cs' with
  | nil =>
    cases h
    rfl
  | cons tc cs ih =>
    obtain ⟨t, c⟩ := tc
    obtain ⟨r, hr, hrest⟩ := bind_eq_some_iff.mp h
    obtain ⟨⟨raw', cs''⟩, hrest', heq⟩ := map_eq_some_iff.mp hrest
    obtain ⟨rfl, rfl⟩ := Prod.ext_iff.mp heq
    have hkept := @ih (base + 1) cs'' raw' hrest'
    rw [kept_cons, kept_cons, kept_cons]
    split
    · exact hkept
    · simp [rawRow, hr, hkept]

theorem rawRows_kept {n : ℕ} {cs : List (Top × LeafCursor)} {raws : List RawRow}
    (h : rawRows n cs = some raws) :
    rawRows n (kept del 0 cs) = some (raws.map (kept del 0)) ∧
      ∀ raw ∈ raws, raw.map (·.1) = cs.map (·.1) := by
  induction n generalizing cs raws with
  | zero =>
    cases h
    exact ⟨rfl, nofun⟩
  | succ n ih =>
    obtain ⟨⟨raw, cs'⟩, hraw, hrest⟩ := bind_eq_some_iff.mp h
    obtain ⟨rows, hrows, rfl⟩ := map_eq_some_iff.mp hrest
    obtain ⟨hkept, hfst⟩ := ih hrows
    obtain ⟨hraw', hcs'⟩ := rawRow_length hraw
    refine ⟨by simp [rawRows, rawRow_kept hraw, hkept], fun r hr => ?_⟩
    rcases mem_cons.mp hr with rfl | hr
    · exact hraw'
    · exact (hfst r hr).trans hcs'

/-- With fewer columns, the rows are those columns of the rows. -/
theorem rawGroups_kept {gs : List RowGroup} {raws : List RawRow}
    (h : rawGroups tops gs = some raws) :
    rawGroups (kept del 0 tops) gs = some (raws.map (kept del 0)) ∧
      ∀ raw ∈ raws, raw.map (·.1) = tops := by
  induction gs generalizing raws with
  | nil =>
    cases h
    exact ⟨rfl, nofun⟩
  | cons g gs ih =>
    rw [rawGroups] at h ⊢
    cases hdecode : decodeTops g tops with
    | error e => simp [hdecode, Except.toOption] at h
    | ok cs =>
      simp only [hdecode, Except.toOption, Option.bind_some] at h
      obtain ⟨first, hfirst, hmore⟩ := bind_eq_some_iff.mp h
      obtain ⟨more, hmore', rfl⟩ := map_eq_some_iff.mp hmore
      obtain ⟨hkept, hfst⟩ := @decodeTops_kept tops del g 0 cs hdecode
      obtain ⟨hrows, hraw⟩ := @rawRows_kept del g.numRows cs first hfirst
      obtain ⟨hgroups, hraw'⟩ := ih hmore'
      refine ⟨?_, fun raw hmem => ?_⟩
      · simp [hkept, Except.toOption, hrows, hgroups]
      · rcases mem_append.mp hmem with hmem | hmem
        · exact (hraw raw hmem).trans hfst
        · exact hraw' raw hmem

/-! ### One row -/

theorem coerceRow_isSome {raw : RawRow} {row : Row} :
    (coerceRow coerceFn raw row).isSome = true ↔
      ∀ r ∈ raw, (returnedValue coerceFn r.1.imp r.2).isSome = true := by
  induction raw generalizing row with
  | nil => simp [coerceRow]
  | cons r raw ih =>
    obtain ⟨t, v⟩ := r
    rw [coerceRow, forall_mem_cons]
    cases hval : returnedValue coerceFn t.imp v with
    | none => simp
    | some x => simp [ih]

/-- A bound column has its value, and the others what they had. -/
theorem coerceRow_spec {raw : RawRow} {row₀ row : Row} (hnodup : (raw.map fun r => r.1.attno).Nodup)
    (h : coerceRow coerceFn raw row₀ = some row) : row.length = row₀.length ∧
      (∀ a, a ∉ raw.map (fun r => r.1.attno) → row[a]? = row₀[a]?) ∧
      ∀ r ∈ raw, r.1.attno < row₀.length →
        row[r.1.attno]? = returnedValue coerceFn r.1.imp r.2 := by
  induction raw generalizing row₀ with
  | nil =>
    cases h
    refine ⟨rfl, fun _ _ => rfl, fun r hr => ?_⟩
    exact (not_mem_nil hr).elim
  | cons r raw ih =>
    obtain ⟨t, v⟩ := r
    obtain ⟨x, hx, hrest⟩ := bind_eq_some_iff.mp h
    obtain ⟨hnot, hnodup⟩ := nodup_cons.mp hnodup
    obtain ⟨hlen, hothers, hvals⟩ := ih hnodup hrest
    rw [length_set] at hlen hvals
    refine ⟨hlen, fun a ha => ?_, fun r hr hlt => ?_⟩
    · rw [map_cons, mem_cons, not_or] at ha
      rw [hothers a ha.2, getElem?_set_ne (fun heq => ha.1 heq.symm)]
    · rcases mem_cons.mp hr with rfl | hr
      · -- the columns behind do not touch it
        rw [hothers _ hnot, getElem?_set_self hlt]
        exact hx.symm
      · exact hvals r hr hlt

/-- Without some of its columns, a row has null there and the same values elsewhere. -/
theorem coerceRow_kept {natts : ℕ} {raw : RawRow} {row : Row} (hfst : raw.map (·.1) = tops)
    (hnodup : (tops.map (·.attno)).Nodup) (hlt : ∀ t ∈ tops, t.attno < natts)
    (h : coerceRow coerceFn raw (List.replicate natts none) = some row) :
    ∃ row', coerceRow coerceFn (kept del 0 raw) (List.replicate natts none) = some row' ∧
      (∀ i t, tops[i]? = some t → row'[t.attno]? = if del i then some none else row[t.attno]?) ∧
      ∀ a, a ∉ tops.map (·.attno) → row'[a]? = row[a]? := by
  have hattnos : raw.map (fun r => r.1.attno) = tops.map (·.attno) := by
    rw [← hfst, map_map]
    rfl
  have hnodup' : (raw.map fun r => r.1.attno).Nodup := hattnos ▸ hnodup
  have hsub : ((kept del 0 raw).map fun r => r.1.attno).Sublist (raw.map fun r => r.1.attno) :=
    (kept_sublist raw).map _
  have hsome : (coerceRow coerceFn (kept del 0 raw) (List.replicate natts none)).isSome = true := by
    refine coerceRow_isSome.mpr fun r hr => ?_
    exact coerceRow_isSome.mp (by rw [h]; rfl) r ((kept_sublist raw).subset hr)
  obtain ⟨row', hrow'⟩ := Option.isSome_iff_exists.mp hsome
  obtain ⟨-, hothers, hvals⟩ := coerceRow_spec hnodup' h
  obtain ⟨-, hothers', hvals'⟩ := coerceRow_spec (hnodup'.sublist hsub) hrow'
  rw [length_replicate] at hvals hvals'
  refine ⟨row', hrow', fun i t hi => ?_, fun a ha => ?_⟩
  · obtain ⟨r, hr, rfl⟩ : ∃ r, raw[i]? = some r ∧ r.1 = t := by
      rw [← hfst, getElem?_map] at hi
      exact map_eq_some_iff.mp hi
    have hltr := hlt r.1 (mem_of_getElem? hi)
    split
    · next hdel =>
      rw [hothers' r.1.attno, getElem?_replicate, if_pos hltr]
      -- no other column has this attribute
      intro hmem
      obtain ⟨r', hr', hattno⟩ := mem_map.mp hmem
      obtain ⟨j, hj, hdel'⟩ := mem_of_mem_kept hr'
      have hget : (raw.map fun r => r.1.attno)[i]? = some r.1.attno := by rw [getElem?_map, hr]; rfl
      have hget' : (raw.map fun r => r.1.attno)[j]? = some r.1.attno := by
        rw [getElem?_map, hj, ← hattno]
        rfl
      have hij : i = j := by
        obtain ⟨hi', hieq⟩ := List.getElem?_eq_some_iff.mp hget
        obtain ⟨hj', hjeq⟩ := List.getElem?_eq_some_iff.mp hget'
        exact (hnodup'.getElem_inj_iff).mp (hieq.trans hjeq.symm)
      rw [Nat.zero_add, ← hij, hdel] at hdel'
      cases hdel'
    · next hdel =>
      have hmem : r ∈ kept del 0 raw :=
        mem_kept hr (by rw [Nat.zero_add]; exact Bool.not_eq_true _ ▸ hdel)
      rw [hvals' r hmem hltr, hvals r (mem_of_getElem? hr) hltr]
  · rw [hothers a (hattnos ▸ ha)]
    exact hothers' a fun hmem => ha (hattnos ▸ hsub.subset hmem)

/-! ### The scan -/

/-- The rows of the file under a mask: a column that is left out is null. -/
theorem returnedRows_kept {natts base : ℕ} {skip : ℕ → Bool} {raws : List RawRow} {rows : List Row}
    (hfst : ∀ raw ∈ raws, raw.map (·.1) = tops) (hnodup : (tops.map (·.attno)).Nodup)
    (hlt : ∀ t ∈ tops, t.attno < natts)
    (h : returnedRows coerceFn natts skip base raws = some rows) :
    ∃ rows', returnedRows coerceFn natts skip base (raws.map (kept del 0)) = some rows' ∧
      List.Forall₂ (fun row' row => (∀ i t, tops[i]? = some t →
        row'[t.attno]? = if del i then some none else row[t.attno]?) ∧
        ∀ a, a ∉ tops.map (·.attno) → row'[a]? = row[a]?) rows' rows := by
  induction raws generalizing base rows with
  | nil =>
    cases h
    exact ⟨[], rfl, .nil⟩
  | cons raw raws ih =>
    have hfst' : ∀ r ∈ raws, r.map (·.1) = tops := fun r hr => hfst r (mem_cons_of_mem _ hr)
    rw [map_cons]
    rw [returnedRows_cons] at h ⊢
    split at h
    · next hdel =>
      rw [if_pos hdel]
      exact ih hfst' h
    · next hdel =>
      rw [if_neg hdel]
      obtain ⟨row, hrow, hrest⟩ := bind_eq_some_iff.mp h
      obtain ⟨more, hmore, rfl⟩ := map_eq_some_iff.mp hrest
      obtain ⟨row', hrow', hspec⟩ := @coerceRow_kept coerceFn tops del natts raw row
        (hfst raw mem_cons_self) hnodup hlt hrow
      obtain ⟨more', hmore', hall⟩ := ih hfst' hmore
      exact ⟨row' :: more', by simp [hrow', hmore'], .cons hspec hall⟩

theorem map_eq_of_forall₂ {α β γ : Type} {R : α → β → Prop} {f : α → γ} {g : β → γ} {l : List α}
    {l' : List β}
    (h : List.Forall₂ R l l') (hfg : ∀ a, ∀ b ∈ l', R a b → f a = g b) : l.map f = l'.map g := by
  induction h with
  | nil => rfl
  | cons hab h ih =>
    rw [map_cons, map_cons, hfg _ _ mem_cons_self hab,
      ih fun a b hb => hfg a b (mem_cons_of_mem _ hb)]

theorem neededTops_none : neededTops none tops = tops := by
  unfold neededTops
  rw [filter_eq_self.mpr (by simp), zipIdx_map_fst]

/-- **Projection pushdown.**  The referenced columns have the values of a read that decodes every
column if and only if the attribute at the position of such a column among those that the file has
is referenced as well, unless the column is null in every row. -/
theorem mask_eq_iff {needed : List ℤ} {skipPos : List ℕ} {rows : List Row}
    (hskip : skipPos.Pairwise (· < ·))
    (hrows : readParquetByFieldIdNM coercionFunction coerceFn f atts ids nm skipPos
      none = .ok rows) :
    (∃ rows', readParquetByFieldIdNM coercionFunction coerceFn f atts ids nm skipPos
        (neededMask atts.length needed) = .ok rows' ∧
      ∀ a, Referenced needed a → rows'.map (·[a]?) = rows.map (·[a]?)) ↔
    ∀ i a, (boundAtts f nm 0 atts ids)[i]? = some a → Referenced needed a →
      Referenced needed i ∨ ∀ row ∈ rows, row[a]? = some none := by
  unfold neededMask
  split
  · next hall =>
    -- no mask
    refine ⟨fun _ i _ _ _ => .inl (hall.imp_right .inl), fun _ => ⟨rows, hrows, fun _ _ => rfl⟩⟩
  · next hmask =>
    rw [not_or] at hmask
    unfold readParquetByFieldIdNM readFileInto at hrows ⊢
    cases hbuild : buildImpTargetsByFieldId coercionFunction f atts ids nm true with
    | error e =>
      rw [hbuild] at hrows
      cases hrows
    | ok tops =>
      rw [hbuild] at hrows
      dsimp only at hrows ⊢
      have hattnos := attnos_build hbuild
      have hsub := @boundAtts_sublist f nm atts ids 0
      rw [← hattnos] at hsub ⊢
      have hnodup : (tops.map (·.attno)).Nodup := (nodup_range' (n := atts.length)).sublist hsub
      have hlt : ∀ t ∈ tops, t.attno < atts.length := by
        intro t ht
        have hmem := mem_range'_1.mp (hsub.subset (mem_map_of_mem ht))
        omega
      have hlen : tops.length ≤ atts.length := by
        simpa using hsub.length_le
      -- the mask is looked into at the positions of the bound columns
      let del : ℕ → Bool := fun i =>
        !((some ((List.range atts.length).map fun ci : ℕ =>
          decide ((ci : ℤ) + 1 ∈ needed))).elim true
          fun mask => mask[i]?.getD false)
      have hdel : ∀ i, i < tops.length → (del i = false ↔ Referenced needed i) := by
        intro i hi
        have hi' : i < atts.length := by omega
        simp [del, Referenced, hi', hmask]
      obtain ⟨raws, hraws, hreturned⟩ := (readGroups_eq_ok_iff hskip).mp hrows
      rw [neededTops_none] at hraws
      obtain ⟨hmasked, hfst⟩ := @rawGroups_kept tops del f.groups raws hraws
      obtain ⟨rows', hrows', hall⟩ :=
        @returnedRows_kept coerceFn tops del atts.length 0 _ raws rows hfst hnodup hlt hreturned
      have hread : pqReadRows coerceFn f atts.length tops
          (some ((List.range atts.length).map fun ci : ℕ => decide ((ci : ℤ) + 1 ∈ needed)))
            skipPos = .ok rows' := by
        refine (readGroups_eq_ok_iff hskip).mpr ⟨_, ?_, hrows'⟩
        rw [neededTops_eq]
        exact hmasked
      have hget : ∀ i a : ℕ, (tops.map (·.attno))[i]? = some a → ∃ t, tops[i]? = some t ∧
        t.attno = a := by
        intro i a hi
        rw [getElem?_map] at hi
        exact map_eq_some_iff.mp hi
      constructor
      · intro ⟨rows'', hread', hcolumns⟩ i a hi href
        rw [hread] at hread'
        obtain rfl := Except.ok.inj hread'
        obtain ⟨t, ht, rfl⟩ := hget i a hi
        by_cases hrefi : Referenced needed i
        · exact .inl hrefi
        · -- the column is left out, so that it is null
          right
          have hi' : i < tops.length := (List.getElem?_eq_some_iff.mp ht).1
          have hdel' : del i = true := Bool.of_not_eq_false fun h => hrefi ((hdel i hi').mp h)
          have hnull : rows'.map (·[t.attno]?) = rows.map (fun _ => some none) := by
            refine map_eq_of_forall₂ hall fun row' row hmem hrow => ?_
            rw [hrow.1 i t ht, if_pos hdel']
          rw [hcolumns t.attno href] at hnull
          exact map_inj_left.mp hnull
      · intro hcond
        refine ⟨rows', hread, fun a href => ?_⟩
        by_cases hmem : a ∈ tops.map (·.attno)
        · obtain ⟨i, hi⟩ := mem_iff_getElem?.mp hmem
          obtain ⟨t, ht, rfl⟩ := hget i a hi
          have hi' : i < tops.length := (List.getElem?_eq_some_iff.mp ht).1
          rcases hcond i t.attno hi href with hrefi | hnull
          · refine map_eq_of_forall₂ hall fun row' row hmem hrow => ?_
            rw [hrow.1 i t ht, if_neg (by rw [(hdel i hi').mpr hrefi]; simp)]
          · refine map_eq_of_forall₂ hall fun row' row hmem hrow => ?_
            rw [hrow.1 i t ht, hnull row hmem, ite_self]
        · exact map_eq_of_forall₂ hall fun row' row _ hrow => hrow.2 a hmem

/-- A file of one `int` column with the field id 2, and one row. -/
def oneColumn : DataFile where
  leaves := [⟨⟨⟨.int32, -1, .none, false, false, false, 0, 0, 0⟩, 1, 0⟩, some 2, "b", 1⟩]
  groupIds := []
  groups := [⟨1, fun _ _ => some ⟨[⟨1, 0⟩], [.int 7]⟩⟩]

/-- Two `int4` attributes. -/
def twoAtts : List Att := [⟨false, true, .int4, -1⟩, ⟨false, true, .int4, -1⟩]

/-- Both attributes are referenced. -/
theorem mask_eq_iff_oneColumn : ∃ rows',
    readParquetByFieldIdNM (fun _ => false) (fun _ _ d => some d) oneColumn twoAtts
      [1, 2] [] [] (neededMask 2 [1, 2]) = .ok rows' ∧
    ∀ a, Referenced [1, 2] a → rows'.map (·[a]?) = [[none, some (.int 7)]].map (·[a]?) := by
  refine (mask_eq_iff List.Pairwise.nil (by rfl)).mpr fun i a hi _ => .inl ?_
  -- the file has one column, so that the position is 0
  have hbound : boundAtts oneColumn [] 0 twoAtts [1, 2] = [1] := by rfl
  rw [hbound] at hi
  have hi' : i < 1 := (List.getElem?_eq_some_iff.mp hi).1
  obtain rfl : i = 0 := by omega
  decide

/-- The second attribute is referenced, which is the first that the file has: it is read as null. -/
theorem mask_ne_oneColumn : readParquetByFieldIdNM (fun _ => false)
    (fun _ _ d => some d) oneColumn twoAtts [1, 2]
      [] [] none = .ok [[none, some (.int 7)]] ∧
    ¬ ∃ rows', readParquetByFieldIdNM (fun _ => false) (fun _ _ d => some d) oneColumn twoAtts
      [1, 2] [] []
        (neededMask 2 [2]) = .ok rows' ∧
      ∀ a, Referenced [2] a → rows'.map (·[a]?) = [[none, some (.int 7)]].map (·[a]?) := by
  have hread : readParquetByFieldIdNM (fun _ => false) (fun _ _ d => some d) oneColumn twoAtts
    [1, 2] [] []
      (neededMask 2 [2]) = .ok [[none, none]] := by rfl
  refine ⟨rfl, fun ⟨rows', hrows', hcolumns⟩ => ?_⟩
  rw [hread] at hrows'
  obtain rfl := Except.ok.inj hrows'
  have hne := hcolumns 1 (by decide)
  simp at hne

end PgColumnar.Iceberg
