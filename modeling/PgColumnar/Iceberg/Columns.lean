import PgColumnar.Iceberg.Deletes
import PgColumnar.Iceberg.Projection
import PgColumnar.Lib.MapM

/-!
# The columns of a read

The scan reads delete files, and data files before a deletion, for some of their columns.  Such a
read has in each column what a read of that column alone has, so that two reads can be compared
column by column although each makes its own descriptor.

## Main definitions

* `fieldValue` — the value of a column at an ordinal.

## Main results

* `fieldValue_of_read` — a read of some columns has the values of each.
-/

namespace PgColumnar.Iceberg

open Bytes Parquet List

section Lists

theorem exists_of_forall₂ {α β : Type} {l : List α} {l' : List β} {R : α → β → Prop}
    (h : List.Forall₂ R l l') {i : ℕ} {a : α}
    (hi : l[i]? = some a) :
    ∃ b, l'[i]? = some b ∧ R a b := by
  induction h generalizing i with
  | nil => simp at hi
  | cons hab h ih =>
    cases i with
    | zero =>
      obtain rfl : _ = a := by simpa using hi
      exact ⟨_, rfl, hab⟩
    | succ i => exact ih (by simpa using hi)

end Lists

section

variable (coercionFunction : TypeOid → Bool) (coerceFn : TypeOid → ℤ → Datum → Option Datum)

/-- A value of the file: what a read of its column alone has at the ordinal. -/
def fieldValue (f : DataFile) (c : ℕ × TypeOid) (i : ℕ) : Option (Option Datum) :=
  match readParquetByFieldId coercionFunction coerceFn f [plainAtt c.2] [c.1] with
  | .error _ => none
  | .ok rows => rows[i]?.bind fun row => row[0]?

/-- A column of the file that a target is bound to. -/
structure Binds (f : DataFile) (c : ℕ × TypeOid) (t : Top) : Prop where
  carriers : carriers f [] c.1 = [t.leaf]
  imp : ∃ l, f.leaves[t.leaf]? = some l ∧
    bindFieldId coercionFunction (plainAtt c.2) c.1 l.info = .ok t.imp

end

variable {coercionFunction : TypeOid → Bool} {coerceFn : TypeOid → ℤ → Datum → Option Datum}
  {f : DataFile} {nm : NameMapping} {cols : List (ℕ × TypeOid)} {tops : List Top} {del : ℕ → Bool}

/-! ### The binding -/

/-- Each column of a read that has to find them all is bound. -/
theorem bindAtts_columns {i : ℕ} {out : List Top} (h : bindAtts coercionFunction f [] false i
      (cols.map fun c => plainAtt c.2) (cols.map (·.1)) tops = .ok out) :
    ∃ ts, out = tops ++ ts ∧ List.Forall₂ (Binds coercionFunction f) cols ts ∧
      ts.map (·.attno) = List.range' i cols.length := by
  induction cols generalizing i tops with
  | nil =>
    cases h
    exact ⟨[], (append_nil _).symm, .nil, rfl⟩
  | cons c cols ih =>
    rw [map_cons, map_cons, bindAtts, if_neg (by simp [plainAtt])] at h
    split at h
    · next hscalar => cases hscalar
    · split at h
      · split at h
        · cases h
        · cases h
      · next j hone =>
        split_ifs at h
        split at h
        · cases h
        · next l hleaf =>
          split at h
          · cases h
          · next imp himp =>
            obtain ⟨ts, rfl, hbinds, hattnos⟩ := ih h
            refine ⟨⟨i, j, imp⟩ :: ts, by simp, .cons ⟨hone, l, hleaf, himp⟩ hbinds, ?_⟩
            rw [map_cons, length_cons, range'_succ, hattnos]
      · cases h

/-- A column that is bound in some read is bound alone. -/
theorem build_single {c : ℕ × TypeOid} {t : Top} (h : Binds coercionFunction f c t) :
    buildImpTargetsByFieldId coercionFunction f [plainAtt c.2] [c.1] [] false = .ok
      [⟨0, t.leaf, t.imp⟩] := by
  obtain ⟨l, hleaf, himp⟩ := h.imp
  have hids : ¬ f.leaves.all (fun l => (effId f [] l).isNone) = true := by
    intro hall
    have hmem : t.leaf ∈ carriers f [] c.1 := by simp [h.carriers]
    obtain ⟨-, hid⟩ := mem_filter.mp hmem
    have hnone := all_eq_true.mp hall l (mem_of_getElem? hleaf)
    simp only [hleaf, Option.bind_some, decide_eq_true_eq] at hid
    simp [hid] at hnone
  unfold plainAtt at himp
  unfold buildImpTargetsByFieldId
  rw [if_neg hids]
  simp [plainAtt, bindAtts, h.carriers, hleaf, himp]

/-- A column that the file has itself is bound without the mapping and with it alike. -/
theorem carriers_of_native {id : ℕ} (h : ∃ l ∈ f.leaves, l.fieldId = some id) :
    carriers f nm id = carriers f [] id := by
  obtain ⟨l, hl, hid⟩ := h
  have hany : f.leaves.any (fun l' => l'.fieldId = some id) = true :=
    any_eq_true.mpr ⟨l, hl, by simp [hid]⟩
  have heff : ∀ l' : FileLeaf, effId f nm l' = some id ↔ effId f [] l' = some id := by
    intro l'
    unfold effId
    cases l'.fieldId with
    | some id' => rfl
    | none =>
      -- the mapping gives no leaf an id that another leaf carries
      by_cases hdepth : l'.depth ≠ 1
      · simp [hdepth]
      · simp only [hdepth, if_false, find?_nil, reduceCtorEq, iff_false]
        split
        · simp
        · next e hfind =>
          split
          · simp
          · next hnone =>
            intro heq
            rw [Option.some.inj heq] at hnone
            exact hnone hany
  unfold carriers
  refine filter_congr fun j _ => ?_
  cases f.leaves[j]? with
  | none => rfl
  | some l' => simp [heff l']

theorem carriers_ne_nil_iff {id : ℕ} : carriers f [] id ≠ [] ↔
    ∃ l ∈ f.leaves, l.fieldId = some id := by
  have heff : ∀ l : FileLeaf, effId f [] l = l.fieldId := by
    intro l
    unfold effId
    cases l.fieldId <;> simp
  rw [ne_nil_iff_exists_cons]
  constructor
  · intro ⟨j, js, hcons⟩
    have hmem : j ∈ carriers f [] id := by simp [hcons]
    obtain ⟨-, hid⟩ := mem_filter.mp hmem
    obtain ⟨l, hl, hid'⟩ := Option.bind_eq_some_iff.mp (of_decide_eq_true hid)
    exact ⟨l, mem_of_getElem? hl, (heff l).symm.trans hid'⟩
  · intro ⟨l, hl, hid⟩
    obtain ⟨j, hj⟩ := mem_iff_getElem?.mp hl
    have hlt := (List.getElem?_eq_some_iff.mp hj).1
    have hmem : j ∈ carriers f [] id := by
      unfold carriers
      rw [mem_filter, mem_range, hj]
      exact ⟨hlt, by simp [heff, hid]⟩
    cases hcons : carriers f [] id with
    | nil => simp [hcons] at hmem
    | cons j js => exact ⟨j, js, rfl⟩

theorem bindAtts_eq_of_native {i : ℕ} (h : ∀ c ∈ cols, ∃ l ∈ f.leaves, l.fieldId = some c.1) :
    bindAtts coercionFunction f nm true i (cols.map fun c => plainAtt c.2) (cols.map (·.1)) tops =
      bindAtts coercionFunction f [] false i (cols.map fun c => plainAtt c.2)
        (cols.map (·.1)) tops := by
  induction cols generalizing i tops with
  | nil => rfl
  | cons c cols ih =>
    have hc := h c mem_cons_self
    have hne : carriers f [] c.1 ≠ [] := carriers_ne_nil_iff.mpr hc
    have ih' : ∀ i tops, _ := fun i tops => @ih tops i fun c' hc' => h c' (mem_cons_of_mem _ hc')
    have hdropped : ¬ (plainAtt c.2).dropped = true := by simp [plainAtt]
    rw [map_cons, map_cons, bindAtts, bindAtts, carriers_of_native hc, if_neg hdropped,
      if_neg hdropped]
    simp only [ih']
    split
    · rfl
    · split
      · next hnone => exact (hne hnone).elim
      · rfl
      · rfl

/-- **The name mapping** changes nothing in a read of columns that the file has itself. -/
theorem build_eq_of_native (hne : cols ≠ [])
    (h : ∀ c ∈ cols, ∃ l ∈ f.leaves, l.fieldId = some c.1) :
    buildImpTargetsByFieldId coercionFunction f (cols.map fun c => plainAtt c.2)
      (cols.map (·.1)) nm true =
      buildImpTargetsByFieldId coercionFunction f (cols.map fun c => plainAtt c.2) (cols.map (·.1))
        [] false := by
  obtain ⟨c, cols', rfl⟩ := exists_cons_of_ne_nil hne
  obtain ⟨l, hl, hid⟩ := h c mem_cons_self
  have hids : ∀ nm', ¬ f.leaves.all (fun l => (effId f nm' l).isNone) = true := by
    intro nm' hall
    have hnone := all_eq_true.mp hall l hl
    simp [effId, hid] at hnone
  unfold buildImpTargetsByFieldId
  rw [if_neg (hids nm), if_neg (hids []), bindAtts_eq_of_native h]

/-- A column that the file does not have itself is an error for the plain read. -/
theorem native_of_build
    (h : buildImpTargetsByFieldId coercionFunction f (cols.map fun c => plainAtt c.2)
      (cols.map (·.1)) [] false = .ok tops) : ∀ c ∈ cols, ∃ l ∈ f.leaves, l.fieldId = some c.1 := by
  unfold buildImpTargetsByFieldId at h
  split at h
  · cases h
  · split_ifs at h
    obtain ⟨ts, rfl, hbinds, -⟩ := bindAtts_columns h
    intro c hc
    obtain ⟨k, hk⟩ := mem_iff_getElem?.mp hc
    obtain ⟨t, -, ht⟩ := exists_of_forall₂ hbinds hk
    rw [← carriers_ne_nil_iff, ht.carriers]
    exact cons_ne_nil _ _

/-! ### The values -/

section Rename

variable {ren : Top → Top}

theorem decodeTops_map (hren : ∀ t, (ren t).leaf = t.leaf ∧ (ren t).imp = t.imp) {g : RowGroup} :
    (decodeTops g (tops.map ren)).toOption =
      (decodeTops g tops).toOption.map fun cs => cs.map fun c => (ren c.1, c.2) := by
  induction tops with
  | nil => rfl
  | cons t tops ih =>
    rw [map_cons, decodeTops, decodeTops, (hren t).1, (hren t).2]
    cases g.chunk t.leaf t.imp.plan with
    | none => rfl
    | some c =>
      cases hrest : decodeTops g tops with
      | error e =>
        rw [hrest] at ih
        cases hrest' : decodeTops g (tops.map ren) with
        | error e => rfl
        | ok cs => simp [hrest', Except.toOption] at ih
      | ok cs =>
        rw [hrest] at ih
        cases hrest' : decodeTops g (tops.map ren) with
        | error e => simp [hrest', Except.toOption] at ih
        | ok cs' =>
          rw [hrest'] at ih
          obtain rfl := Option.some.inj ih
          rfl

theorem rawRow_map (hren : ∀ t, (ren t).leaf = t.leaf ∧ (ren t).imp = t.imp)
    {cs : List (Top × LeafCursor)} :
    rawRow (cs.map fun c => (ren c.1, c.2)) =
      (rawRow cs).map fun r => (r.1.map fun v => (ren v.1, v.2), r.2.map fun c =>
        (ren c.1, c.2)) := by
  induction cs with
  | nil => rfl
  | cons tc cs ih =>
    obtain ⟨t, c⟩ := tc
    rw [map_cons, rawRow, rawRow, (hren t).2, ih]
    cases takeRaw t.imp.maxDef c with
    | none => rfl
    | some r => cases rawRow cs <;> rfl

theorem rawRows_map (hren : ∀ t, (ren t).leaf = t.leaf ∧ (ren t).imp = t.imp) {n : ℕ}
    {cs : List (Top × LeafCursor)} : rawRows n (cs.map fun c => (ren c.1, c.2)) =
      (rawRows n cs).map fun raws => raws.map fun raw => raw.map fun v => (ren v.1, v.2) := by
  induction n generalizing cs with
  | zero => rfl
  | succ n ih =>
    rw [rawRows, rawRows, rawRow_map hren]
    cases rawRow cs with
    | none => rfl
    | some r =>
      simp only [Option.map_some, Option.bind_some, ih]
      cases rawRows n r.2 <;> rfl

/-- The values do not depend on the attributes that they are read for. -/
theorem rawGroups_map (hren : ∀ t, (ren t).leaf = t.leaf ∧ (ren t).imp = t.imp)
    {gs : List RowGroup} :
    rawGroups (tops.map ren) gs =
      (rawGroups tops gs).map fun raws => raws.map fun raw => raw.map fun v => (ren v.1, v.2) := by
  induction gs with
  | nil => rfl
  | cons g gs ih =>
    rw [rawGroups, rawGroups, decodeTops_map hren, ih]
    cases (decodeTops g tops).toOption with
    | none => rfl
    | some cs =>
      simp only [Option.map_some, Option.bind_some, rawRows_map hren]
      cases rawRows g.numRows cs with
      | none => rfl
      | some rows => cases rawGroups tops gs <;> simp

end Rename

/-- Without positions, every row is returned. -/
theorem returnedRows_all {natts base : ℕ} {raws : List RawRow} {rows : List Row} :
    returnedRows coerceFn natts (fun _ => false) base raws = some rows ↔
      List.Forall₂ (fun raw row => coerceRow coerceFn raw (List.replicate natts none) =
        some row) raws rows := by
  unfold returnedRows
  rw [MapM.eq_some_iff]
  have hkept : kept (fun _ => false) base raws = raws := by
    simp [kept, filter_eq_self.mpr]
  rw [hkept]

theorem kept_single {α : Type} {base k : ℕ} {l : List α} {a : α} (h : l[k]? = some a) :
    kept (fun i => decide (i ≠ base + k)) base l = [a] := by
  induction l generalizing base k with
  | nil => simp at h
  | cons b l ih =>
    rw [kept_cons]
    cases k with
    | zero =>
      obtain rfl : b = a := by simpa using h
      have hrest : kept (fun i => decide (i ≠ base + 0)) (base + 1) l = [] := by
        unfold kept
        rw [filter_eq_nil_iff.mpr fun r hr => ?_, map_nil]
        have hle := (mem_zipIdx hr).1
        simp only [Nat.add_zero, ne_eq, decide_not, Bool.not_not, decide_eq_true_eq]
        omega
      rw [hrest, if_neg (by simp)]
    | succ k =>
      have hrest := @ih (base + 1) k (by simpa using h)
      rw [Nat.add_right_comm, Nat.add_assoc] at hrest
      rw [hrest, if_pos (by simp)]

/-- A read without positions. -/
theorem readColumns_spec {rows : List Row} (h : readParquetByFieldId coercionFunction coerceFn f
      (cols.map fun c => plainAtt c.2) (cols.map (·.1)) = .ok rows) :
    ∃ tops raws, List.Forall₂ (Binds coercionFunction f) cols tops ∧
      tops.map (·.attno) = List.range' 0 cols.length ∧ rawGroups tops f.groups = some raws ∧
      List.Forall₂ (fun raw row => coerceRow coerceFn raw (List.replicate cols.length none) =
        some row) raws rows := by
  unfold readParquetByFieldId readFileInto at h
  cases hbuild : buildImpTargetsByFieldId coercionFunction f (cols.map fun c => plainAtt c.2)
    (cols.map (·.1)) [] false with
  | error e => simp [hbuild] at h
  | ok tops =>
    rw [hbuild] at h
    obtain ⟨raws, hraws, hrows⟩ := (readGroups_eq_ok_iff List.Pairwise.nil).mp h
    rw [neededTops_none] at hraws
    simp only [not_mem_nil, decide_false, length_map] at hrows
    unfold buildImpTargetsByFieldId at hbuild
    split at hbuild
    · cases hbuild
    · split_ifs at hbuild
      obtain ⟨ts, rfl, hbinds, hattnos⟩ := bindAtts_columns hbuild
      exact ⟨_, raws, hbinds, hattnos, hraws, returnedRows_all.mp hrows⟩

/-- **A read of some columns** has in each of them the values of the column. -/
theorem fieldValue_of_read {rows : List Row} (h : readParquetByFieldId coercionFunction coerceFn f
      (cols.map fun c => plainAtt c.2) (cols.map (·.1)) = .ok rows) {k : ℕ} {c : ℕ × TypeOid}
    (hk : cols[k]? = some c) (i : ℕ) :
    fieldValue coercionFunction coerceFn f c i = rows[i]?.bind fun row => row[k]? := by
  obtain ⟨tops, raws, hbinds, hattnos, hraws, hrows⟩ := readColumns_spec h
  obtain ⟨t, ht, htbinds⟩ := exists_of_forall₂ hbinds hk
  have hlt : k < cols.length := (List.getElem?_eq_some_iff.mp hk).1
  have hattno : t.attno = k := by
    have hget : (tops.map (·.attno))[k]? = some t.attno := by rw [getElem?_map, ht]; rfl
    rw [hattnos, getElem?_range' hlt] at hget
    simpa using (Option.some.inj hget).symm
  have hnodup : (tops.map (·.attno)).Nodup := by
    rw [hattnos]
    exact nodup_range'
  -- the column alone, for the attribute 0
  obtain ⟨hkept, hfst⟩ := @rawGroups_kept tops (fun i => decide (i ≠ 0 + k)) f.groups raws hraws
  rw [kept_single ht] at hkept
  have hsingle := @rawGroups_map [t] (fun t => ⟨0, t.leaf, t.imp⟩) (fun _ => ⟨rfl, rfl⟩) f.groups
  rw [hkept, Option.map_some, map_map] at hsingle
  let single : RawRow → RawRow :=
    (fun raw => raw.map fun v => (⟨0, v.1.leaf, v.1.imp⟩, v.2)) ∘ kept
      (fun i => decide (i ≠ 0 + k)) 0
  have hrows' : List.Forall₂ (fun raw row => coerceRow coerceFn raw (List.replicate 1 none) =
    some row)
      (raws.map single) (rows.map fun row => row[k]?.toList) := by
    rw [forall₂_map_left_iff, forall₂_map_right_iff]
    refine ((forall₂_and_left _ _).mpr ⟨hfst, hrows⟩).imp fun raw row ⟨hraw, hrow⟩ => ?_
    obtain ⟨r, hr, rfl⟩ : ∃ r, raw[k]? = some r ∧ r.1 = t := by
      rw [← hraw, getElem?_map] at ht
      exact Option.map_eq_some_iff.mp ht
    have hnodup' : (raw.map fun r => r.1.attno).Nodup := by
      rw [← hraw, map_map] at hnodup
      exact hnodup
    obtain ⟨-, -, hvals⟩ := coerceRow_spec hnodup' hrow
    have hval := hvals r (mem_of_getElem? hr) (by rwa [length_replicate, hattno])
    rw [hattno] at hval
    obtain ⟨x, hx⟩ : ∃ x, returnedValue coerceFn r.1.imp r.2 = some x :=
      Option.isSome_iff_exists.mp (coerceRow_isSome.mp (by rw [hrow]; rfl) r (mem_of_getElem? hr))
    simp only [single, Function.comp_apply]
    rw [kept_single hr, hval, hx]
    simp [coerceRow, hx]
  have hread : readParquetByFieldId coercionFunction coerceFn f [plainAtt c.2] [c.1] =
      .ok (rows.map fun row => row[k]?.toList) := by
    unfold readParquetByFieldId readFileInto
    rw [build_single htbinds]
    have hreturned := @returnedRows_all coerceFn 1 0 _ _ |>.mpr hrows'
    refine (readGroups_eq_ok_iff List.Pairwise.nil).mpr ⟨raws.map single, ?_, ?_⟩
    · rw [neededTops_none]
      exact hsingle
    · simp only [not_mem_nil, decide_false]
      exact hreturned
  unfold fieldValue
  rw [hread]
  cases hi : rows[i]? with
  | none => simp [hi]
  | some row => cases hrow : row[k]? <;> simp [hi, hrow]

end PgColumnar.Iceberg
