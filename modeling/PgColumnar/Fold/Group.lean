import PgColumnar.Fold.ScanKey
import PgColumnar.Lib.Bitmap
import Mathlib.Data.Nat.Count

/-!
# The rows of a loaded row group

A loaded row group holds each column as a bitmap of the rows that are not null and the
values of those rows, packed.  The row path (`PgColumnarReadNextRow`) keeps for each column a
cursor into the values, advances it by every value it reads, also of a deleted row, and by a
whole vector where the zone maps ruled the vector out.

## Main definitions

* `LoadedGroup`, `SkipMap` — the columns of a group, and the vectors that were ruled out.
* `readRow` — the row path.

## Main results

* `groupRows_eq` — it returns the rows that are neither ruled out nor deleted.
-/

namespace PgColumnar.Fold

open Bytes List Nat

/-- A column of a loaded group: `packed` reaches from the value cursor to the value end. -/
structure Column where
  validity : List Byte
  packed : List Byte
  vecRawLen : List ℕ

/-- The vectors of a group: where their rows start, the end of the last one included, and
which were ruled out. -/
structure SkipMap where
  vecStart : List ℕ
  skipVec : List Bool
  start_zero : vecStart.getD 0 0 = 0
  start_mono : ∀ v w, v ≤ w → w ≤ skipVec.length → vecStart.getD v 0 ≤ vecStart.getD w 0

/-- The rows of a column with a value, before row `r`. -/
def Column.rank (col : Column) (r : ℕ) : ℕ := Nat.count (fun i => bitAt col.validity i = true) r

/-- The part of `PgColumnarReadState` that a loaded group fills.  The values of a column
passed by value are of one length, and the lengths of its vectors are those of their values,
also where they were not decoded. -/
structure LoadedGroup (tupdesc : TupleDesc) where
  rowCount : ℕ
  deleteMask : Option (List Byte)
  skip : Option SkipMap
  decodeSkipped : Bool
  column : ℕ → Option Column
  skip_of_decodeSkipped : decodeSkipped = true → skip.isSome = true
  packed_length : ∀ c att col, tupdesc[c]? = some att → att.attbyval = true → column c = some col →
    col.rank rowCount * att.attlen ≤ col.packed.length
  vecRawLen_eq : ∀ m ∈ skip, ∀ c att col, tupdesc[c]? = some att → att.attbyval = true →
    column c = some col → ∀ v < m.skipVec.length, col.vecRawLen.getD v 0 =
        (col.rank (m.vecStart.getD (v + 1) 0) - col.rank (m.vecStart.getD v 0)) * att.attlen

/-- `fetch_att`: a value passed by value keeps its sign. -/
def fetchAtt (bytes : List Byte) (attlen : ℕ) : Datum :=
  (BitVec.ofNat (8 * attlen) (leNat (bytes.take attlen))).signExtend 64

/-- `dv_row_deleted` -/
def dvRowDeleted (mask : Option (List Byte)) (row : ℕ) : Bool :=
  match mask with
  | none => false
  | some m => decide (row / 8 < m.length) && bitAt m row

/-- The walk to the vector of a row. -/
def SkipMap.walk (m : SkipMap) (row curVec : ℕ) : ℕ :=
  if curVec < m.skipVec.length ∧ m.vecStart.getD (curVec + 1) 0 ≤ row then m.walk row (curVec + 1)
  else curVec
termination_by m.skipVec.length - curVec

abbrev Row := List (Option Datum)

/-- A reader of a relation: the columns it returns, what a column is where a group does not
have it, and the reading of a value that is not passed by value, with its length. -/
structure Reader where
  tupdesc : TupleDesc
  colWanted : ℕ → Bool
  missing : ℕ → Option Datum
  decodeValue : Attribute → List Byte → Option (Datum × ℕ)

variable (rd : Reader) (g : LoadedGroup rd.tupdesc)

/-- The position of the row path in a group. -/
structure RowState where
  rowInGroup : ℕ
  curVec : ℕ
  cursor : List ℕ

/-- `pgcolumnar_row_read_column`: the value and the cursor after it. -/
def rowReadColumn (row c cursor : ℕ) : Option (Option Datum × ℕ) :=
  if rd.colWanted c = false then some (none, cursor)
  else
    match g.column c with
    | none => some (rd.missing c, cursor)
    | some col =>
      if bitAt col.validity row then
        let att := rd.tupdesc.getD c default
        if att.attbyval then
          -- a value past the end of the stream is an error
          if col.packed.length < cursor + att.attlen then none
          else some (some (fetchAtt (col.packed.drop cursor) att.attlen), cursor + att.attlen)
        else (rd.decodeValue att (col.packed.drop cursor)).map fun (d, len) =>
          (some d, cursor + len)
      else some (none, cursor)

def readRow (row : ℕ) (cursor : List ℕ) : Option (Row × List ℕ) :=
  ((List.range rd.tupdesc.length).mapM fun c => rowReadColumn rd g row c (cursor.getD c 0)).map
    List.unzip

/-- `pgcolumnar_native_skip_current_vector`: whether a vector was skipped, and the position
after it. -/
def skipCurrentVector (s : RowState) : Bool × RowState :=
  match g.skip with
  | none => (false, s)
  | some m =>
    let v := m.walk s.rowInGroup s.curVec
    if v < m.skipVec.length ∧ m.skipVec.getD v false = true ∧
        s.rowInGroup = m.vecStart.getD v 0 then
      (true, ⟨m.vecStart.getD (v + 1) 0, v + 1, (List.range rd.tupdesc.length).map fun c =>
        match g.column c with
        | none => s.cursor.getD c 0
        | some col => s.cursor.getD c 0 + col.vecRawLen.getD v 0⟩)
    else (false, { s with curVec := v })

variable {row curVec : ℕ}

/-- A row is not behind the vector that the walk ends at. -/
theorem lt_of_walk_lt (m : SkipMap) (h : m.walk row curVec < m.skipVec.length) :
    row < m.vecStart.getD (m.walk row curVec + 1) 0 := by
  fun_induction SkipMap.walk m row curVec with
  | case1 curVec hstep ih => exact ih h
  | case2 curVec hstop =>
    by_contra hge
    exact hstop ⟨h, not_lt.mp hge⟩

variable {s s' : RowState}

variable {rd g} in
theorem skipCurrentVector_lt (h : skipCurrentVector rd g s = (true, s')) :
    s.rowInGroup < s'.rowInGroup := by
  unfold skipCurrentVector at h
  split at h
  · cases h
  · next m hm =>
    dsimp only at h
    split at h
    · next hskip =>
      cases h
      exact lt_of_walk_lt m hskip.1
    · cases h

variable {rd g} in
theorem skipCurrentVector_false (h : skipCurrentVector rd g s = (false, s')) :
    s'.rowInGroup = s.rowInGroup ∧ s'.cursor = s.cursor ∧ s'.curVec = (match g.skip with
        | none => s.curVec
        | some m => m.walk s.rowInGroup s.curVec) := by
  unfold skipCurrentVector at h
  cases hskip : g.skip with
  | none =>
    rw [hskip] at h
    cases h
    exact ⟨rfl, rfl, rfl⟩
  | some m =>
    rw [hskip] at h
    dsimp only at h
    split at h
    · cases h
    · cases h
      exact ⟨rfl, rfl, rfl⟩

/-- The rows of a group that `pgcolumnar_native_next_row` returns from a position on, if it
does not fail. -/
def groupRows (s : RowState) : Option (List Row) :=
  if s.rowInGroup < g.rowCount then
    match _hskip : skipCurrentVector rd g s with
    | (true, s') => groupRows s'
    | (false, s') =>
      (readRow rd g s'.rowInGroup s'.cursor).bind fun (values, cursor) =>
        (groupRows ⟨s'.rowInGroup + 1, s'.curVec, cursor⟩).map fun rest =>
          -- the cursors have advanced over a deleted row
          if dvRowDeleted g.deleteMask s'.rowInGroup then rest else values :: rest
  else some []
termination_by g.rowCount - s.rowInGroup
decreasing_by
  · have := skipCurrentVector_lt _hskip
    omega
  · have := (skipCurrentVector_false _hskip).1
    omega

/-! ### What a row holds -/

/-- The value of a row in a column of the group. -/
def Column.cell (att : Attribute) (col : Column) (r : ℕ) : Option Datum :=
  if bitAt col.validity r then
    some (fetchAtt (col.packed.drop (col.rank r * att.attlen)) att.attlen)
  else none

/-- The value that the row path returns. -/
def cell (c r : ℕ) : Option Datum :=
  if rd.colWanted c = false then none
  else
    match g.column c with
    | none => rd.missing c
    | some col => col.cell (rd.tupdesc.getD c default) r

def rowAt (r : ℕ) : Row := (List.range rd.tupdesc.length).map fun c => cell rd g c r

/-- The row is in a vector that was ruled out. -/
def SkipMap.Skipped (m : SkipMap) (r : ℕ) : Prop :=
  ∃ v < m.skipVec.length, m.skipVec.getD v false = true ∧ m.vecStart.getD v 0 ≤ r ∧
    r < m.vecStart.getD (v + 1) 0

/-- The vector the walk ends at decides whether the row was ruled out. -/
def vecSkipped (curVec : ℕ) : Bool :=
  match g.skip with
  | none => false
  | some m => decide (curVec < m.skipVec.length) && m.skipVec.getD curVec false

/-- The walk of one row, from the vector of an earlier one. -/
def walkVec (row curVec : ℕ) : ℕ :=
  match g.skip with
  | none => curVec
  | some m => m.walk row curVec

/-- The row is read: it is neither ruled out nor deleted. -/
def live (r : ℕ) : Bool :=
  !(vecSkipped rd g (walkVec rd g r 0)) && !(dvRowDeleted g.deleteMask r)

variable {rd g}

/-! ### The vector of a row -/

/-- The row is at or behind the start of a vector that the walk may start from. -/
def SkipMap.From (m : SkipMap) (row curVec : ℕ) : Prop :=
  curVec ≤ m.skipVec.length ∧ m.vecStart.getD curVec 0 ≤ row

theorem SkipMap.From.zero (m : SkipMap) (row : ℕ) : m.From row 0 :=
  ⟨zero_le _, by rw [m.start_zero]; exact zero_le _⟩

variable {m : SkipMap}

theorem SkipMap.From.walk (h : m.From row curVec) : m.From row (m.walk row curVec) := by
  fun_induction SkipMap.walk m row curVec with
  | case1 curVec hstep ih => exact ih ⟨hstep.1, hstep.2⟩
  | case2 curVec hstop => exact h

theorem SkipMap.From.mono {row' : ℕ} (h : m.From row curVec)
    (hle : row ≤ row') : m.From row' curVec := ⟨h.1, h.2.trans hle⟩

/-- From wherever the walk starts, it ends at the same vector. -/
theorem walk_eq {v w : ℕ} (hv : m.From row v) (hw : m.From row w) :
    m.walk row v = m.walk row w := by
  have hend : ∀ v, m.From row v → ∀ u, m.From row u → u ≤ m.walk row v := by
    intro v hv u hu
    by_contra hlt
    rw [not_le] at hlt
    have hbehind := lt_of_walk_lt m (hlt.trans_le hu.1)
    have hmono := m.start_mono (m.walk row v + 1) u hlt hu.1
    have hstart := hu.2
    omega
  exact le_antisymm (hend w hw _ hv.walk) (hend v hv _ hw.walk)

theorem vecSkipped_iff (hm : g.skip = some m) (r : ℕ) :
    vecSkipped rd g (walkVec rd g r 0) = true ↔ m.Skipped r := by
  have hwalk := (SkipMap.From.zero m r).walk
  unfold vecSkipped walkVec
  simp only [hm, Bool.and_eq_true, decide_eq_true_eq]
  constructor
  · intro h
    exact ⟨_, h.1, h.2, hwalk.2, lt_of_walk_lt m h.1⟩
  · intro h
    obtain ⟨v, hv, hskip, hstart, hend⟩ := h
    have hfrom : m.From r v := ⟨hv.le, hstart⟩
    have hstop : m.walk r v = v := by
      rw [SkipMap.walk, if_neg (fun hstep => absurd hstep.2 (not_le.mpr hend))]
    rw [walk_eq (SkipMap.From.zero m r) hfrom, hstop]
    exact ⟨hv, hskip⟩

/-! ### The row path -/

theorem rank_succ (col : Column) (r : ℕ) :
    col.rank (r + 1) = col.rank r + if bitAt col.validity r then 1 else 0 := count_succ ..

theorem rank_mono (col : Column) {r r' : ℕ} (h : r ≤ r') : col.rank r ≤ col.rank r' :=
  count_monotone _ h

/-- Every cursor is behind the values of the rows before, and a vector that was ruled out is
entered at its start. -/
structure RowInv (s : RowState) : Prop where
  from_vector : ∀ m ∈ g.skip, m.From s.rowInGroup s.curVec
  boundary : ∀ m ∈ g.skip, ∀ v < m.skipVec.length, m.skipVec.getD v false = true →
    ¬(m.vecStart.getD v 0 < s.rowInGroup ∧ s.rowInGroup < m.vecStart.getD (v + 1) 0)
  cursor_eq : ∀ c att col, rd.tupdesc[c]? = some att → att.attbyval = true → g.column c = some col →
    s.cursor.getD c 0 = col.rank s.rowInGroup * att.attlen

/-- The columns that the reader returns are passed by value. -/
def Reader.ByValue (rd : Reader) : Prop :=
  ∀ c att, rd.colWanted c = true → rd.tupdesc[c]? = some att → att.attbyval = true

/-- A column that the reader does not return is not loaded. -/
def LoadedGroup.Projected (g : LoadedGroup rd.tupdesc) : Prop :=
  ∀ c, rd.colWanted c = false → g.column c = none

/-- One column of one row: its cell, and the cursor behind the row. -/
theorem rowReadColumn_eq (hbyval : rd.ByValue) (hproj : g.Projected)
    (hs : RowInv (g := g) s) (hrow : s.rowInGroup < g.rowCount) {c : ℕ}
    (hc : c < rd.tupdesc.length) :
    ∃ cur, rowReadColumn rd g s.rowInGroup c (s.cursor.getD c 0) =
        some (cell rd g c s.rowInGroup, cur) ∧
      ∀ att col, rd.tupdesc[c]? = some att → att.attbyval = true → g.column c = some col →
        cur = col.rank (s.rowInGroup + 1) * att.attlen := by
  unfold rowReadColumn cell
  cases hw : rd.colWanted c with
  | false =>
    rw [if_pos rfl, if_pos rfl]
    refine ⟨_, rfl, ?_⟩
    intro att col _ _ hcol
    rw [hproj c hw] at hcol
    cases hcol
  | true =>
    rw [if_neg (by simp), if_neg (by simp)]
    cases hcol : g.column c with
    | none => exact ⟨_, rfl, nofun⟩
    | some col =>
      have hatt : rd.tupdesc[c]? = some (rd.tupdesc.getD c default) := by
        rw [getD_eq_getElem?_getD, getElem?_eq_getElem hc, Option.getD_some]
      have hval := hbyval c _ hw hatt
      have hcur := hs.cursor_eq c _ col hatt hval hcol
      dsimp only [Column.cell]
      cases hbit : bitAt col.validity s.rowInGroup with
      | false =>
        rw [if_neg (by simp), if_neg (by simp)]
        refine ⟨_, rfl, ?_⟩
        intro att col' hatt' _ hcol'
        rw [hatt] at hatt'
        cases hatt'
        cases hcol'
        rw [rank_succ, hbit, hcur]
        simp
      | true =>
        have hrank : col.rank (s.rowInGroup + 1) = col.rank s.rowInGroup + 1 := by
          rw [rank_succ, hbit, if_pos rfl]
        -- the value lies inside the stream
        have hlen := g.packed_length c _ col hatt hval hcol
        have hmono := mul_le_mul_right (rd.tupdesc.getD c default).attlen
          (rank_mono col (show s.rowInGroup + 1 ≤ g.rowCount from hrow))
        rw [hrank, succ_mul] at hmono
        rw [if_pos rfl, if_pos rfl, if_pos hval, hcur, if_neg (by omega)]
        refine ⟨_, rfl, ?_⟩
        intro att col' hatt' _ hcol'
        rw [hatt] at hatt'
        cases hatt'
        cases hcol'
        rw [hrank, succ_mul]

theorem mapM_eq_some_map {α β : Type} {f : α → Option β} {h : α → β} {l : List α}
    (hf : ∀ x ∈ l, f x = some (h x)) : l.mapM f = some (l.map h) := by
  induction l with
  | nil => rfl
  | cons x l ih =>
    rw [mapM_cons, hf x mem_cons_self, ih fun y hy => hf y (mem_cons_of_mem _ hy)]
    rfl

/-- One row: its cells, and the cursors behind it. -/
theorem readRow_eq (hbyval : rd.ByValue) (hproj : g.Projected)
    (hs : RowInv (g := g) s) (hrow : s.rowInGroup < g.rowCount) :
    ∃ cursor, readRow rd g s.rowInGroup s.cursor = some (rowAt rd g s.rowInGroup, cursor) ∧
      ∀ c att col, rd.tupdesc[c]? = some att → att.attbyval = true → g.column c = some col →
        cursor.getD c 0 = col.rank (s.rowInGroup + 1) * att.attlen := by
  obtain ⟨next, hnext⟩ : ∃ next : ℕ → ℕ, ∀ c < rd.tupdesc.length,
      rowReadColumn rd g s.rowInGroup c (s.cursor.getD c 0) =
          some (cell rd g c s.rowInGroup, next c) ∧
        ∀ att col, rd.tupdesc[c]? = some att → att.attbyval = true → g.column c = some col →
          next c = col.rank (s.rowInGroup + 1) * att.attlen := by
    have hcols := fun c (hc : c < rd.tupdesc.length) => rowReadColumn_eq hbyval hproj hs hrow hc
    choose! next hnext using hcols
    exact ⟨next, hnext⟩
  refine ⟨(List.range rd.tupdesc.length).map next, ?_, ?_⟩
  · unfold readRow
    rw [mapM_eq_some_map fun c hc => (hnext c (mem_range.mp hc)).1, Option.map_some,
      unzip_eq_map, map_map, map_map]
    rfl
  · intro c att col hatt hval hcol
    have hc : c < rd.tupdesc.length := (List.getElem?_eq_some_iff.mp hatt).1
    rw [getD_eq_getElem?_getD, getElem?_map, getElem?_range hc]
    exact (hnext c hc).2 att col hatt hval hcol

/-- Behind a vector that was ruled out. -/
theorem RowInv.skip (hs : RowInv (g := g) s) (h : skipCurrentVector rd g s = (true, s')) :
    RowInv (g := g) s' ∧ ∀ r, s.rowInGroup ≤ r → r < s'.rowInGroup → live rd g r = false := by
  unfold skipCurrentVector at h
  split at h
  · cases h
  next m hm =>
  dsimp only at h
  split at h
  swap
  · cases h
  next hskip =>
  generalize m.walk s.rowInGroup s.curVec = u at h hskip
  obtain ⟨hlt, hflag, hstart⟩ := hskip
  cases h
  refine ⟨⟨?_, ?_, ?_⟩, ?_⟩
  · intro m' hm'
    obtain rfl : m = m' := Option.some.inj (hm.symm.trans hm')
    exact ⟨hlt, le_rfl⟩
  · intro m' hm' v hv _ hinside
    obtain rfl : m = m' := Option.some.inj (hm.symm.trans hm')
    -- no vector starts before the end of another one and ends after it
    rcases lt_or_ge v (u + 1) with hbefore | hbehind
    · exact absurd (m.start_mono (v + 1) _ hbefore hlt) (not_le.mpr hinside.2)
    · exact absurd (m.start_mono _ v hbehind hv.le) (not_le.mpr hinside.1)
  · intro c att col hatt hval hcol
    have hc : c < rd.tupdesc.length := (List.getElem?_eq_some_iff.mp hatt).1
    have hraw := g.vecRawLen_eq m hm c att col hatt hval hcol _ hlt
    have hmono := rank_mono col (m.start_mono u (u + 1) (le_succ u) hlt)
    rw [getD_eq_getElem?_getD, getElem?_map, getElem?_range hc]
    simp only [Option.map_some, Option.getD_some, hcol]
    rw [hs.cursor_eq c att col hatt hval hcol, hraw, hstart, ← add_mul]
    congr 1
    omega
  · intro r hle hr
    have hskipped : m.Skipped r := ⟨_, hlt, hflag, hstart ▸ hle, hr⟩
    unfold live
    rw [(vecSkipped_iff hm r).mpr hskipped]
    rfl

/-- A row that no ruled out vector starts with is in none. -/
theorem RowInv.live_eq (hs : RowInv (g := g) s) (h : skipCurrentVector rd g s = (false, s')) :
    live rd g s.rowInGroup = !(dvRowDeleted g.deleteMask s.rowInGroup) := by
  have hnot : vecSkipped rd g (walkVec rd g s.rowInGroup 0) = false := by
    cases hm : g.skip with
    | none => simp [vecSkipped, hm]
    | some m =>
      rw [← Bool.not_eq_true, vecSkipped_iff hm]
      intro hskipped
      have hskipped' := (vecSkipped_iff hm _).mpr hskipped
      obtain ⟨v, hv, hflag, hstart, hend⟩ := hskipped
      unfold skipCurrentVector at h
      rw [hm] at h
      dsimp only at h
      split at h
      · cases h
      next hno =>
      unfold vecSkipped walkVec at hskipped'
      simp only [hm, Bool.and_eq_true, decide_eq_true_eq] at hskipped'
      rw [walk_eq (SkipMap.From.zero m _) (hs.from_vector m hm)] at hskipped'
      have hwalk := (hs.from_vector m hm).walk
      -- it is not entered in its middle either
      have hmid := hs.boundary m hm _ hskipped'.1 hskipped'.2
      have hlt := lt_of_walk_lt m hskipped'.1
      apply hno
      refine ⟨hskipped'.1, hskipped'.2, ?_⟩
      have hle := hwalk.2
      by_contra hne
      exact hmid ⟨by omega, hlt⟩
  unfold live
  rw [hnot, Bool.not_false, Bool.true_and]

/-- Behind a row that was read. -/
theorem RowInv.read (hs : RowInv (g := g) s)
    (h : skipCurrentVector rd g s = (false, s')) {cursor : List ℕ}
    (hcursor : ∀ c att col, rd.tupdesc[c]? = some att → att.attbyval = true →
      g.column c = some col →
      cursor.getD c 0 = col.rank (s.rowInGroup + 1) * att.attlen) :
    RowInv (g := g) ⟨s.rowInGroup + 1, s'.curVec, cursor⟩ := by
  refine ⟨?_, ?_, hcursor⟩
  · intro m hm
    have hcur := (skipCurrentVector_false h).2.2
    rw [show g.skip = some m from hm] at hcur
    rw [hcur]
    exact (hs.from_vector m hm).walk.mono (le_succ _)
  · intro m hm v hv hflag hinside
    have hmid := hs.boundary m hm v hv hflag
    -- the row before would have been the first of the vector
    have hstart : m.vecStart.getD v 0 = s.rowInGroup := by
      dsimp only at hinside
      omega
    have hstop : m.walk s.rowInGroup s.curVec = v := by
      have hfrom : m.From s.rowInGroup v := ⟨hv.le, hstart.le⟩
      rw [walk_eq (hs.from_vector m hm) hfrom, SkipMap.walk]
      rw [if_neg (fun hstep => absurd hstep.2 (by dsimp only at hinside; omega))]
    unfold skipCurrentVector at h
    rw [show g.skip = some m from hm] at h
    dsimp only at h
    rw [hstop, if_pos ⟨hv, hflag, hstart.symm⟩] at h
    cases h

/-- Rows that are not read may be left out from the front. -/
theorem filter_range'_skip {p : ℕ → Bool} {r r' n : ℕ} (hle : r ≤ r')
    (h : ∀ i, r ≤ i → i < r' → p i = false) :
    (List.range' r (n - r)).filter p = (List.range' r' (n - r')).filter p := by
  induction r', hle using le_induction with
  | base => rfl
  | succ r' hle ih =>
    rw [ih fun i hi hlt => h i hi (by omega)]
    rcases lt_or_ge r' n with hlt | hge
    · rw [show n - r' = (n - (r' + 1)) + 1 by omega, range'_succ, filter_cons,
        h r' hle (lt_succ_self r'), if_neg (by simp)]
    · rw [show n - r' = 0 by omega, show n - (r' + 1) = 0 by omega]
      rfl

/-- **The row path returns the rows that are neither in a vector that was ruled out nor
deleted, with what they hold.** -/
theorem groupRows_eq (hbyval : rd.ByValue) (hproj : g.Projected) (s : RowState)
    (hs : RowInv (g := g) s) :
    groupRows rd g s = some (((List.range' s.rowInGroup (g.rowCount - s.rowInGroup)).filter
      (live rd g)).map (rowAt rd g)) := by
  fun_induction groupRows rd g s with
  | case1 s hrow s' hskip ih =>
    obtain ⟨hs', hdead⟩ := hs.skip hskip
    rw [ih hs', filter_range'_skip (skipCurrentVector_lt hskip).le hdead]
  | case2 s hrow s' hskip ih =>
    obtain ⟨heq, hcur, -⟩ := skipCurrentVector_false hskip
    obtain ⟨cursor, hread, hcursor⟩ := readRow_eq hbyval hproj hs hrow
    have hs' := hs.read hskip hcursor
    have hrest := ih cursor (by rw [heq]; exact hs')
    rw [heq] at hrest ⊢
    rw [hcur, hread, Option.bind_some]
    dsimp only at hrest ⊢
    rw [hrest, Option.map_some, show g.rowCount - s.rowInGroup =
      (g.rowCount - (s.rowInGroup + 1)) + 1 by omega, range'_succ, filter_cons,
      hs.live_eq hskip]
    cases dvRowDeleted g.deleteMask s.rowInGroup <;> rfl
  | case3 s hrow =>
    rw [show g.rowCount - s.rowInGroup = 0 by omega]
    rfl

/-- The position in which a group is entered. -/
def RowState.start (rd : Reader) : RowState := ⟨0, 0, List.replicate rd.tupdesc.length 0⟩

theorem RowInv.start : RowInv (g := g) (RowState.start rd) where
  from_vector m _ := SkipMap.From.zero m 0
  boundary m _ v _ _ h := absurd h.1 (not_lt_zero _)
  cursor_eq c att col hatt _ _ := by
    have hc : c < rd.tupdesc.length := (List.getElem?_eq_some_iff.mp hatt).1
    simp [RowState.start, Column.rank, hc]

end PgColumnar.Fold
