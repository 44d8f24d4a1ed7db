import PgColumnar.Iceberg.Probe
import PgColumnar.Iceberg.Prune

/-!
# What the file stores

A row that the scan returns has in each column a value that the file stores in the leaf of the
column's field, read under the plan of the column, or null where the file has no such leaf.

## Main definitions

* `Decodes` — a file whose chunks decode to its stored values.

## Main results

* `row_readsFrom` — what a returned row has in its columns.
-/

namespace PgColumnar.Iceberg

open Bytes Parquet List

/-- A value as the file stores it: a bit, or a plain value. -/
inductive Stored where
  | bit (b : Bool)
  | plain (bytes : List Byte)

/-- The value that the reader makes of a stored one. -/
def readStored (session : Session) (plan : PqColPlan) : Stored → Option Datum
  | .bit b => if plan.expectPhys = .boolean then some (.bool b) else none
  | .plain bytes => (plainValueToDatum session plan bytes).map (·.1)

/-- The chunks decode to the values that the file stores in their leaves. -/
structure Decodes (session : Session) (f : DataFile) (stored : ℕ → List (Option Stored)) :
    Prop where
  vals : ∀ g ∈ f.groups, ∀ j plan c, g.chunk j plan = some c → ∀ v ∈ c.vals,
    ∃ x, some x ∈ stored j ∧ readStored session plan x = some v
  nulls : ∀ g ∈ f.groups, ∀ j l plan c, f.leaves[j]? = some l → g.chunk j plan = some c →
    ∀ level ∈ c.levels, level.defn ≠ l.info.maxDef → none ∈ stored j

variable (coercionFunction : TypeOid → Bool) (coerceFn : TypeOid → ℤ → Datum → Option Datum)
  (session : Session)

/-- The leaf that a column is bound to. -/
structure BindsTo (f : DataFile) (nm : NameMapping) (col : Column) (id : ℕ) (t : Top) : Prop where
  carriers : carriers f nm id = [t.leaf]
  imp : ∃ l, f.leaves[t.leaf]? = some l ∧ bindFieldId coercionFunction col.att id l.info = .ok t.imp

/-- The value comes from the stored values of the field. -/
def ReadsFrom (f : DataFile) (nm : NameMapping) (stored : ℕ → List (Option Stored)) (col : Column)
    (id : ℕ)
    (value : Option Datum) : Prop :=
  (carriers f nm id = [] ∧ value = none) ∨ ∃ t, BindsTo coercionFunction f nm col id t ∧
      ((value = none ∧ none ∈ stored t.leaf) ∨ ∃ x d d', some x ∈ stored t.leaf ∧
        readStored session t.imp.plan x = some d ∧ pqTakeValue coerceFn t.imp.plan d = some d' ∧
          value = some d')

variable {coercionFunction coerceFn session} {f : DataFile} {nm : NameMapping}
  {stored : ℕ → List (Option Stored)}
  {cols : List Column} {ids : List ℕ} {tops : List Top}

/-! ### The binding -/

/-- The ids of the columns that are not dropped. -/
def ColumnIds (cols : List Column) (ids : List ℕ) : Prop :=
  (cols.filter fun c => !c.att.dropped).map (·.fieldId) = ids.map some

theorem bindAtts_cols {i : ℕ} {out : List Top} (hids : ColumnIds cols ids)
    (h : bindAtts coercionFunction f nm true i (cols.map (·.att)) ids tops = .ok out) :
    ∃ ts, out = tops ++ ts ∧
      (∀ t ∈ ts, ∃ k col id, t.attno = i + k ∧ cols[k]? = some col ∧ col.fieldId = some id ∧
        BindsTo coercionFunction f nm col id t) ∧
      ∀ k col id, cols[k]? = some col → col.att.dropped = false → col.fieldId = some id →
        (∃ t ∈ ts, t.attno = i + k) ∨ carriers f nm id = [] := by
  induction cols generalizing i ids tops with
  | nil =>
    cases h
    exact ⟨[], (append_nil _).symm, by simp, by simp⟩
  | cons col cols ih =>
    rw [map_cons, bindAtts.eq_def] at h
    dsimp only at h
    by_cases hdropped : col.att.dropped = true
    · have hids' : ColumnIds cols ids := by simpa [ColumnIds, hdropped] using hids
      rw [if_pos hdropped] at h
      obtain ⟨ts, rfl, hts, hall⟩ := ih hids' h
      refine ⟨ts, rfl, fun t ht => ?_, fun k col' id hk hlive hid => ?_⟩
      · obtain ⟨k, col', id, hattno, hk, hid, hbinds⟩ := hts t ht
        exact ⟨k + 1, col', id, by omega, by simpa using hk, hid, hbinds⟩
      · cases k with
        | zero =>
          cases hk
          rw [hdropped] at hlive
          cases hlive
        | succ k =>
          rw [← Nat.add_assoc, Nat.add_right_comm i k 1]
          exact hall k col' id (by simpa using hk) hlive hid
    · rw [if_neg hdropped] at h
      cases ids with
      | nil => simp [ColumnIds, hdropped] at hids
      | cons id ids =>
        have hid : col.fieldId = some id ∧ ColumnIds cols ids := by
          simpa [ColumnIds, hdropped] using hids
        obtain ⟨hid, hids'⟩ := hid
        dsimp only at h
        -- what is said of the columns behind, moved by one
        have hrest : ∀ ts : List Top, (∀ k col' id', cols[k]? = some col' →
          col'.att.dropped = false →
              col'.fieldId = some id' → (∃ t ∈ ts, t.attno = i + 1 + k) ∨ carriers f nm id' = []) →
            ∀ ts' : List Top, (∀ t ∈ ts, t ∈ ts') →
              ((∃ t ∈ ts', t.attno = i) ∨ carriers f nm id = []) →
            ∀ k col' id', (col :: cols)[k]? = some col' → col'.att.dropped = false →
              col'.fieldId = some id' →
              (∃ t ∈ ts', t.attno = i + k) ∨ carriers f nm id' = [] := by
          intro ts hall ts' hsub hfirst k col' id' hk hlive hid'
          cases k with
          | zero =>
            cases hk
            rw [hid] at hid'
            cases hid'
            exact hfirst
          | succ k =>
            rcases hall k col' id' (by simpa using hk) hlive hid' with ⟨t, ht, hattno⟩ | hnone
            · exact .inl ⟨t, hsub t ht, by omega⟩
            · exact .inr hnone
        split at h
        · cases h
        · split at h
          · next hnone =>
            split at h
            · cases h
            · rw [if_pos rfl] at h
              obtain ⟨ts, rfl, hts, hall⟩ := ih hids' h
              refine ⟨ts, rfl, fun t ht => ?_, hrest ts hall ts (fun _ ht => ht) (.inr hnone)⟩
              obtain ⟨k, col', id', hattno, hk, hid', hbinds⟩ := hts t ht
              exact ⟨k + 1, col', id', by omega, by simpa using hk, hid', hbinds⟩
          · next j hone =>
            split_ifs at h
            split at h
            · cases h
            · next l hleaf =>
              split at h
              · cases h
              · next imp himp =>
                obtain ⟨ts, rfl, hts, hall⟩ := ih hids' h
                refine ⟨⟨i, j, imp⟩ :: ts, by simp, fun t ht =>
                  ?_, hrest ts hall _ (fun _ ht => .tail _ ht)
                  (.inl ⟨_, mem_cons_self, rfl⟩)⟩
                rcases mem_cons.mp ht with rfl | ht
                · exact ⟨0, col, id, rfl, rfl, hid, hone, l, hleaf, himp⟩
                · obtain ⟨k, col', id', hattno, hk, hid', hbinds⟩ := hts t ht
                  exact ⟨k + 1, col', id', by omega, by simpa using hk, hid', hbinds⟩
          · cases h

/-! ### The values of a row -/

/-- The cursor is over stored values of its leaf. -/
structure CursorOk (session : Session) (stored : ℕ → List (Option Stored)) (tc : Top × LeafCursor) :
    Prop where
  vals : ∀ v ∈ tc.2.vals, ∃ x, some x ∈ stored tc.1.leaf ∧
    readStored session tc.1.imp.plan x = some v
  nulls : ∀ level ∈ tc.2.levels, level.defn ≠ tc.1.imp.maxDef → none ∈ stored tc.1.leaf

/-- A value before it is coerced is a stored one. -/
def RawOk (session : Session) (stored : ℕ → List (Option Stored)) (r : Top × Option Datum) : Prop :=
  match r.2 with
  | none => none ∈ stored r.1.leaf
  | some v => ∃ x, some x ∈ stored r.1.leaf ∧ readStored session r.1.imp.plan x = some v

theorem takeRaw_ok {t : Top} {c c' : LeafCursor} {v : Option Datum}
    (hc : CursorOk session stored (t, c))
    (h : takeRaw t.imp.maxDef c = some (v, c')) : RawOk session stored (t, v) ∧
      CursorOk session stored (t, c') := by
  obtain ⟨levels, vals⟩ := c
  obtain ⟨hvals, hnulls⟩ := hc
  unfold takeRaw at h
  cases levels with
  | nil => cases h
  | cons level levels =>
    dsimp only at h
    split at h
    · cases vals with
      | nil => cases h
      | cons v' vals =>
        cases h
        exact ⟨hvals v' mem_cons_self, fun v hv => hvals v (.tail _ hv), fun level hl =>
          hnulls level (.tail _ hl)⟩
    · next hne =>
      cases h
      exact ⟨hnulls level mem_cons_self hne, hvals, fun level hl => hnulls level (.tail _ hl)⟩

theorem rawRow_ok {cs : List (Top × LeafCursor)} {cs' : List (Top × LeafCursor)} {raw : RawRow}
    (hcs : ∀ tc ∈ cs, CursorOk session stored tc)
    (h : rawRow cs = some (raw, cs')) :
    (∀ r ∈ raw, RawOk session stored r) ∧ ∀ tc ∈ cs', CursorOk session stored tc := by
  induction cs generalizing raw cs' with
  | nil =>
    cases h
    exact ⟨by simp, by simp⟩
  | cons tc cs ih =>
    obtain ⟨t, c⟩ := tc
    obtain ⟨r, hr, hrest⟩ := Option.bind_eq_some_iff.mp h
    obtain ⟨⟨raw', cs''⟩, hrest', heq⟩ := Option.map_eq_some_iff.mp hrest
    obtain ⟨rfl, rfl⟩ := Prod.ext_iff.mp heq
    obtain ⟨hraw, hcs'⟩ := ih (fun tc htc => hcs tc (.tail _ htc)) hrest'
    obtain ⟨hfirst, hc'⟩ := takeRaw_ok (hcs (t, c) mem_cons_self) hr
    exact ⟨forall_mem_cons.mpr ⟨hfirst, hraw⟩, forall_mem_cons.mpr ⟨hc', hcs'⟩⟩

variable {raws : List RawRow}

theorem rawRows_ok {cs : List (Top × LeafCursor)} {n : ℕ}
    (hcs : ∀ tc ∈ cs, CursorOk session stored tc) (h : rawRows n cs = some raws) :
    ∀ raw ∈ raws, ∀ r ∈ raw, RawOk session stored r := by
  induction n generalizing cs raws with
  | zero =>
    cases h
    simp
  | succ n ih =>
    obtain ⟨⟨raw, cs'⟩, hraw, hrest⟩ := Option.bind_eq_some_iff.mp h
    obtain ⟨rows, hrows, rfl⟩ := Option.map_eq_some_iff.mp hrest
    obtain ⟨hfirst, hcs'⟩ := rawRow_ok hcs hraw
    exact forall_mem_cons.mpr ⟨hfirst, ih hcs' hrows⟩

theorem decodeTops_ok {cs : List (Top × LeafCursor)} {g : RowGroup} (hd : Decodes session f stored)
    (hg : g ∈ f.groups)
    (htops : ∀ t ∈ tops, ∃ l, f.leaves[t.leaf]? = some l ∧ t.imp.maxDef = l.info.maxDef)
    (h : decodeTops g tops = .ok cs) : ∀ tc ∈ cs, CursorOk session stored tc := by
  induction tops generalizing cs with
  | nil =>
    cases h
    simp
  | cons t tops ih =>
    rw [decodeTops] at h
    split at h
    · cases h
    · next c hchunk =>
      split at h
      · cases h
      · next rest hrest =>
        cases h
        refine forall_mem_cons.mpr ⟨⟨hd.vals g hg _ _ c hchunk, fun level hl hne => ?_⟩,
          ih (fun t ht => htops t (.tail _ ht)) hrest⟩
        obtain ⟨l, hleaf, hmax⟩ := htops t mem_cons_self
        exact hd.nulls g hg _ l _ c hleaf hchunk level hl (hmax ▸ hne)

theorem rawGroups_ok {gs : List RowGroup} (hd : Decodes session f stored)
    (hgs : ∀ g ∈ gs, g ∈ f.groups)
    (htops : ∀ t ∈ tops, ∃ l, f.leaves[t.leaf]? = some l ∧ t.imp.maxDef = l.info.maxDef)
    (h : rawGroups tops gs = some raws) : ∀ raw ∈ raws, ∀ r ∈ raw, RawOk session stored r := by
  induction gs generalizing raws with
  | nil =>
    cases h
    simp
  | cons g gs ih =>
    rw [rawGroups] at h
    cases hdecode : decodeTops g tops with
    | error e => simp [hdecode, Except.toOption] at h
    | ok cs =>
      simp only [hdecode, Except.toOption, Option.bind_some] at h
      obtain ⟨first, hfirst, hmore⟩ := Option.bind_eq_some_iff.mp h
      obtain ⟨more, hmore', rfl⟩ := Option.map_eq_some_iff.mp hmore
      intro raw hraw
      rcases mem_append.mp hraw with hraw | hraw
      · exact rawRows_ok (decodeTops_ok hd (hgs g mem_cons_self) htops hdecode) hfirst raw hraw
      · exact ih (fun g hg => hgs g (.tail _ hg)) hmore' raw hraw

theorem maxDef_of_bindFieldId {att : Att} {id : ℕ} {info : PqLeafInfo} {imp : ImpLeaf}
    (h : bindFieldId coercionFunction att id info = .ok imp) : imp.maxDef = info.maxDef := by
  unfold bindFieldId at h
  split at h
  · cases h
  · split at h
    · cases h
    · next want hwant =>
      dsimp only at h
      generalize (if pqFieldIdWidens info.sc att.typid = true then info.sc.physType else want) =
        want' at h
      split_ifs at h
      cases h
      rfl

theorem returned_row_length {del : ℕ → Bool} {natts base : ℕ} {rows : List Row}
    (hrows : returnedRows coerceFn natts del base raws = some rows) {row : Row}
    (hrow : row ∈ rows) :
    row.length = natts := by
  have hlen : ∀ {raw : RawRow} {row₀ row : Row}, coerceRow coerceFn raw row₀ = some row →
    row.length = row₀.length := by
    intro raw
    induction raw with
    | nil =>
      intro row₀ row h
      cases h
      rfl
    | cons r raw ih =>
      intro row₀ row h
      obtain ⟨x, -, hrest⟩ := Option.bind_eq_some_iff.mp h
      rw [ih hrest, length_set]
  obtain ⟨i, hi⟩ := mem_iff_getElem?.mp hrow
  obtain ⟨raw, -, hcoerce⟩ := exists_of_forall₂ (MapM.eq_some_iff.mp hrows).flip hi
  rw [hlen hcoerce, length_replicate]

/-- **A returned row** has in every column a stored value of its field. -/
theorem row_readsFrom {del : ℕ → Bool} (hd : Decodes session f stored) (hids : ColumnIds cols ids)
    {rows : List Row} (hraws : fileRaws coercionFunction f (cols.map (·.att)) ids nm = some raws)
    (hrows : returnedRows coerceFn cols.length del 0 raws = some rows) {row : Row}
    (hrow : row ∈ rows) {k : ℕ}
    {col : Column} {id : ℕ} (hk : cols[k]? = some col) (hlive : col.att.dropped = false)
    (hid : col.fieldId = some id) :
    ∃ value, row[k]? = some value ∧
      ReadsFrom coercionFunction coerceFn session f nm stored col id value := by
  obtain ⟨tops, htops, hgroups⟩ := Option.bind_eq_some_iff.mp hraws
  cases hbuild : buildImpTargetsByFieldId coercionFunction f (cols.map (·.att)) ids nm true with
  | error e => simp [hbuild, Except.toOption] at htops
  | ok tops' =>
    simp only [hbuild, Except.toOption, Option.some.injEq] at htops
    subst htops
    have hnodup : (tops'.map (·.attno)).Nodup := by
      rw [attnos_build hbuild]
      exact (boundAtts_sublist 0).nodup nodup_range'
    unfold buildImpTargetsByFieldId at hbuild
    split at hbuild
    · cases hbuild
    · split_ifs at hbuild
      obtain ⟨ts, hts', hts, hall⟩ := bindAtts_cols hids hbuild
      rw [nil_append] at hts'
      subst hts'
      simp only [Nat.zero_add] at hts hall
      have hmax : ∀ t ∈ tops', ∃ l, f.leaves[t.leaf]? = some l ∧ t.imp.maxDef = l.info.maxDef := by
        intro t ht
        obtain ⟨_, _, _, _, _, _, _, l, hleaf, himp⟩ := hts t ht
        exact ⟨l, hleaf, maxDef_of_bindFieldId himp⟩
      obtain ⟨-, hfst⟩ := @rawGroups_kept tops' (fun _ => false) f.groups raws hgroups
      -- the row is that of a row of the file
      obtain ⟨raw, hraw, hcoerce⟩ : ∃ raw ∈ raws,
        coerceRow coerceFn raw (List.replicate cols.length none) = some row := by
        obtain ⟨i, hi⟩ := mem_iff_getElem?.mp hrow
        have hforall := (MapM.eq_some_iff.mp hrows).flip
        obtain ⟨raw, hraw, hcoerce⟩ := exists_of_forall₂ hforall hi
        obtain ⟨j, hj, -⟩ := mem_of_mem_kept (mem_of_getElem? hraw)
        exact ⟨raw, mem_of_getElem? hj, hcoerce⟩
      have hattnos : raw.map (fun r => r.1.attno) = tops'.map (·.attno) := by
        rw [← hfst raw hraw, map_map]
        rfl
      have hlt : k < cols.length := (List.getElem?_eq_some_iff.mp hk).1
      obtain ⟨-, hothers, hvals⟩ := coerceRow_spec (hattnos ▸ hnodup) hcoerce
      rw [length_replicate] at hvals
      by_cases hmem : k ∈ tops'.map (·.attno)
      · obtain ⟨r, hr, rfl⟩ := mem_map.mp (hattnos ▸ hmem)
        have hrt : r.1 ∈ tops' := hfst raw hraw ▸ mem_map_of_mem (f := (·.1)) hr
        obtain ⟨k', col', id', hattno, hk', hid', hbinds⟩ := hts r.1 hrt
        rw [hattno, hk'] at hk
        cases hk
        rw [hid'] at hid
        cases hid
        have hval := hvals r hr hlt
        have hok := rawGroups_ok hd (fun _ hg => hg) hmax hgroups raw hraw r hr
        obtain ⟨t, v⟩ := r
        unfold RawOk at hok
        cases v with
        | none => exact ⟨none, hval, .inr ⟨t, hbinds, .inl ⟨rfl, hok⟩⟩⟩
        | some d =>
          obtain ⟨x, hx, hread⟩ := hok
          have hsome := coerceRow_isSome.mp (by rw [hcoerce]; rfl) _ hr
          obtain ⟨value, hvalue⟩ := Option.isSome_iff_exists.mp hsome
          rw [hvalue] at hval
          obtain ⟨d', hd', rfl⟩ := Option.map_eq_some_iff.mp hvalue
          exact ⟨some d', hval, .inr ⟨t, hbinds, .inr ⟨x, d, d', hx, hread, hd', rfl⟩⟩⟩
      · have hnone : carriers f nm id = [] := by
          rcases hall k col id hk hlive hid with ⟨t, ht, hattno⟩ | hnone
          · exact (hmem (mem_map.mpr ⟨t, ht, hattno⟩)).elim
          · exact hnone
        refine ⟨none, ?_, .inl ⟨hnone, rfl⟩⟩
        rw [hothers k (hattnos ▸ hmem), getElem?_replicate, if_pos hlt]

end PgColumnar.Iceberg
