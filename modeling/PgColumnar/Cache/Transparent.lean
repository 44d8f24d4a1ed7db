import PgColumnar.Cache.Fetch

/-!
# The fetch caches are transparent

In every run whose events are `Benign`, what a fetch finds through the caches is what it would find
without them.

The memo holds for its snapshot content and its command id: until it is reset, what it lists is
there.  A row is covered by one group that a snapshot sees, so that a group of the list that covers
the row is the one an uncached read finds.  A slot is found by the number of its group and checked
against its geometry, and groups of one number and one row count have the same rows, as they come
from one buffer.

## Main definitions

* `MemoOk`, `SlotOk`, `Inv` — when an entry may be used.

## Main results

* `Inv.fetch_eq` — a fetch through the caches finds what one without them does.
* `fetch_eq_of_run` — after every run of benign events.
-/

namespace PgColumnar.Cache

open Dirty Run State Option

variable {σ α : Type} {seen : σ → ℕ → Bool} {s s' : State σ α} {content : σ} {curcid : ℕ}
  {v w : Version Xid (Group α)} {g h : Group α} {storageId rowNumber natts : ℕ}

/-! ### Versions -/

/-- The chunk rows of a group, with the stamps of the group. -/
def chunkVersions (v : Version Xid (Group α)) : List (Version Xid (Chunk α)) :=
  (List.range v.val.natts).map fun c => ⟨v.val.chunk c, v.xmin, v.xmax⟩

/-- The version is there for a snapshot with the content, but for what the own transaction has
deleted and may roll back. -/
structure Standing (seen : σ → ℕ → Bool) (s : State σ α) (content : σ) (v : Version Xid (Group α)) :
    Prop where
  own : ∀ sub cid, v.xmin = .own sub cid → sub ∉ s.aborted
  other : ∀ x, v.xmin = .other x → seen content x = true
  undeleted : ∀ x, v.xmax = some (.other x) → seen content x = false
  untruncated : s.truncated v = false

/-- The command id of an own stamp is not in the future. -/
def Past (now : ℕ) : Xid → Prop
  | .own _ cid => cid ≤ now
  | .other _ => True

/-- The entry was made in this command or before; if in this one, it lists groups that are there. -/
structure MemoOk (seen : σ → ℕ → Bool) (s : State σ α) (m : Memo σ α) : Prop where
  cid_le : m.cid ≤ s.cid
  curcid : m.cid = s.cid → s.cid < m.curcid
  groups : m.cid = s.cid → ∀ g ∈ m.groups,
    g ∈ s.readRowGroupList seen (.mvcc m.content m.curcid) m.storageId
  last : ∀ g ∈ m.lastGroup, g ∈ m.groups

/-- The entry was made in this command or before; if in this one, from a group of its geometry, and
it holds the columns of all these groups that were not truncated. -/
structure SlotOk (s : State σ α) (e : Slot α) : Prop where
  cid_le : e.cid ≤ s.cid
  source : e.cid = s.cid → ∃ v ∈ s.rowGroup, e.describes v.val = true
  columns : e.cid = s.cid → ∀ v ∈ s.rowGroup, s.truncated v = false → e.describes v.val = true →
    e.columns = v.val.columns e.natts

structure Inv (seen : σ → ℕ → Bool) (s : State σ α) : Prop where
  chunks : s.columnChunk.Perm (s.rowGroup.flatMap chunkVersions)
  past : ∀ v ∈ s.rowGroup, Past s.cid v.xmin ∧ ∀ d ∈ v.xmax, Past s.cid d
  truncations : ∀ t ∈ s.truncatedBy, t.1 ∉ s.aborted ∨ t.2 ∈ s.dropped
  created : ∀ v ∈ s.rowGroup, ∀ x, (x, v.val.storageId) ∈ s.truncatedByOthers →
    v.xmax = some (.other x) → v.xmin = .other x
  one : ∀ c, ∀ v ∈ s.rowGroup, ∀ w ∈ s.rowGroup, Standing seen s c v → Standing seen s c w →
    v.val.clashes w.val = true → v.val = w.val
  buffers : ∀ v ∈ s.rowGroup, ∀ w ∈ s.rowGroup, s.truncated v = false → s.truncated w = false →
    v.val.storageId = w.val.storageId → v.val.groupNumber = w.val.groupNumber →
    v.val.firstRowNumber = w.val.firstRowNumber ∧ v.val.natts = w.val.natts ∧
      (v.val.rows <+: w.val.rows ∨ w.val.rows <+: v.val.rows)
  memo : ∀ m ∈ s.memo, MemoOk seen s m
  slots : ∀ e ∈ s.slots, SlotOk s e

theorem Inv.start (base : Base seen α) : Inv seen (Cache.start base) := by
  have hnone : ∀ v ∈ base.rowGroup, (Cache.start base).truncated v = false →
      ∀ x, v.xmax = some (.other x) → (x, v.val.storageId) ∉ base.truncatedBy := by
    intro v hv htrunc x hmax hx
    unfold truncated at htrunc
    rw [hmax] at htrunc
    simp [Cache.start, hx] at htrunc
  refine ⟨base.chunks, ?_, nofun, base.created, ?_, ?_, nofun, nofun⟩
  · intro v hv
    obtain ⟨⟨x, hx⟩, hmax⟩ := base.others v hv
    refine ⟨by rw [hx]; trivial, fun d hd => ?_⟩
    obtain ⟨y, rfl⟩ := hmax d hd
    trivial
  · intro c v hv w hw hv' hw'
    exact base.one c v hv w hw hv'.other hw'.other hv'.undeleted hw'.undeleted
  · intro v hv w hw hv' hw'
    exact base.buffers v hv w hw (hnone v hv hv') (hnone w hw hw')

/-- What a catalog snapshot shows, stands. -/
theorem Inv.standing (hinv : Inv seen s) (hv : v ∈ s.rowGroup) (hcid : s.cid < curcid)
    (hdropped : v.val.storageId ∉ s.dropped)
    (hshows : s.shows seen (.mvcc content curcid) v = true) : Standing seen s content v := by
  obtain ⟨hmin, hmax⟩ := Bool.and_eq_true_iff.mp hshows
  refine ⟨?_, ?_, ?_, ?_⟩
  · intro sub cid hxmin
    rw [hxmin] at hmin
    simpa using (Bool.and_eq_true_iff.mp hmin).1
  · intro x hxmin
    rwa [hxmin] at hmin
  · intro x hxmax
    simpa [hxmax, seesXid] using hmax
  · by_contra htrunc
    rw [Bool.not_eq_false] at htrunc
    unfold truncated at htrunc
    split at htrunc
    · cases htrunc
    · next sub cid hxmax =>
      -- the truncation has not been rolled back, and is of this command or an earlier one
      have hsub := (hinv.truncations (sub, v.val.storageId) (by simpa using htrunc)).resolve_right
        hdropped
      have hle : cid ≤ s.cid := (hinv.past v hv).2 _ hxmax
      have hlt : cid < curcid := by omega
      simp [hxmax, seesXid, hsub, hlt] at hmax
    · next x hxmax =>
      have hxmin := hinv.created v hv x (by simpa using htrunc) hxmax
      rw [hxmin] at hmin
      have hseen : seen content x = true := hmin
      simp [hxmax, seesXid, hseen] at hmax

/-! ### The reads under an MVCC snapshot -/

theorem mem_readRowGroupList {snapshot : Snapshot σ} :
    g ∈ s.readRowGroupList seen snapshot storageId ↔
    ∃ v ∈ s.rowGroup, s.shows seen snapshot v = true ∧ v.val.storageId = storageId ∧ v.val = g := by
  unfold readRowGroupList
  rw [(List.perm_insertionSort _ _).mem_iff, List.mem_map]
  simp only [List.mem_filter, Bool.and_eq_true, decide_eq_true_eq, and_assoc]

theorem clashes_of_covers (hstorage : g.storageId = h.storageId) (hg : g.covers rowNumber = true)
    (hh : h.covers rowNumber = true) : g.clashes h = true := by
  have hg' := of_decide_eq_true hg
  have hh' := of_decide_eq_true hh
  have hnot : ¬ (g.firstRowNumber + g.rowCount ≤ h.firstRowNumber ∨
      h.firstRowNumber + h.rowCount ≤ g.firstRowNumber) := by omega
  simp [Group.clashes, hstorage, hnot]

/-- A group in the list that covers the row is the one that is found. -/
theorem Inv.readRowGroup_eq_of_mem (hinv : Inv seen s) (hcid : s.cid < curcid)
    (hdropped : storageId ∉ s.dropped)
    (hg : g ∈ s.readRowGroupList seen (.mvcc content curcid) storageId)
    (hcovers : g.covers rowNumber = true) :
    s.readRowGroup seen (.mvcc content curcid) storageId rowNumber = some g := by
  unfold readRowGroup
  cases hfind : (s.readRowGroupList seen (.mvcc content curcid) storageId).find?
    (Group.covers rowNumber) with
  | none => exact (List.find?_eq_none.mp hfind g hg hcovers).elim
  | some h =>
    obtain ⟨v, hv, hshows, hstorage, rfl⟩ := mem_readRowGroupList.mp hg
    obtain ⟨w, hw, hshows', hstorage', rfl⟩ :=
      mem_readRowGroupList.mp (List.mem_of_find?_eq_some hfind)
    have hclash := clashes_of_covers (hstorage'.trans hstorage.symm) (List.find?_some hfind) hcovers
    rw [hinv.one content w hw v hv (hinv.standing hw hcid (hstorage'.symm ▸ hdropped) hshows')
      (hinv.standing hv hcid (hstorage.symm ▸ hdropped) hshows) hclash]

/-- The chunk rows that a catalog snapshot shows for a group are those of the version it shows. -/
theorem Inv.readColumns_eq (hinv : Inv seen s) (hcid : s.cid < curcid) (hv : v ∈ s.rowGroup)
    (hdropped : v.val.storageId ∉ s.dropped)
    (hshows : s.shows seen (.mvcc content curcid) v = true) :
    s.readColumns seen (.mvcc content curcid) v.val.storageId v.val.groupNumber natts =
      v.val.columns natts := by
  unfold readColumns Group.columns
  refine List.map_congr_left fun c _ => ?_
  -- every chunk row that counts is the one of this version
  have hall : ∀ d ∈ s.columnChunk, s.shows seen (.mvcc content curcid) d = true →
      d.val.storageId = v.val.storageId ∧ d.val.groupNumber = v.val.groupNumber ∧
        d.val.columnIndex = c →
      c < v.val.natts ∧ d.val = v.val.chunk c := by
    intro d hd hdshows ⟨hstorage, hnumber, hcolumn⟩
    obtain ⟨w, hw, hdw⟩ := List.mem_flatMap.mp (hinv.chunks.mem_iff.mp hd)
    obtain ⟨c', hc', rfl⟩ := List.mem_map.mp hdw
    have hstorage' : w.val.storageId = v.val.storageId := hstorage
    have hclash : w.val.clashes v.val = true := by
      have hnumber' : w.val.groupNumber = v.val.groupNumber := hnumber
      simp [Group.clashes, hstorage', hnumber']
    have heq := hinv.one content w hw v hv
      (hinv.standing hw hcid (hstorage'.symm ▸ hdropped) hdshows)
      (hinv.standing hv hcid hdropped hshows) hclash
    have hcc : c' = c := hcolumn
    subst hcc
    exact ⟨heq ▸ List.mem_range.mp hc', by rw [heq]⟩
  cases hlast : (s.columnChunk.filter fun d => s.shows seen (.mvcc content curcid) d &&
      decide (d.val.storageId = v.val.storageId ∧ d.val.groupNumber = v.val.groupNumber ∧
        d.val.columnIndex = c)).getLast? with
  | some d =>
    obtain ⟨hd, hd'⟩ := List.mem_filter.mp (List.mem_of_getLast? hlast)
    obtain ⟨hdshows, hmatch⟩ := Bool.and_eq_true_iff.mp hd'
    obtain ⟨hlt, heq⟩ := hall d hd hdshows (of_decide_eq_true hmatch)
    simp [hlt, heq]
  | none =>
    rw [List.getLast?_eq_none_iff, List.filter_eq_nil_iff] at hlast
    by_cases hlt : c < v.val.natts
    · have hmem : (⟨v.val.chunk c, v.xmin, v.xmax⟩ : Version Xid (Chunk α)) ∈ s.columnChunk := by
        refine hinv.chunks.mem_iff.mpr (List.mem_flatMap.mpr ⟨v, hv, ?_⟩)
        exact List.mem_map.mpr ⟨c, List.mem_range.mpr hlt, rfl⟩
      have hshows' : s.shows seen (.mvcc content curcid)
        (⟨v.val.chunk c, v.xmin, v.xmax⟩ : Version Xid (Chunk α)) = true := hshows
      refine (hlast _ hmem ?_).elim
      rw [hshows']
      simp [Group.chunk]
    · simp [hlt]

/-- The invariant depends on the caches through their entries only. -/
theorem Inv.withCaches (hinv : Inv seen s) {memo : List (Memo σ α)} {slots : List (Slot α)}
    (hmemo : ∀ m ∈ memo, MemoOk seen s m) (hslots : ∀ e ∈ slots, SlotOk s e) :
    Inv seen { s with memo := memo, slots := slots } := by
  refine { hinv with one := ?_, memo := ?_, slots := ?_ }
  · intro c v hv w hw hv' hw'
    exact hinv.one c v hv w hw ⟨hv'.own, hv'.other, hv'.undeleted, hv'.untruncated⟩
      ⟨hw'.own, hw'.other, hw'.undeleted, hw'.untruncated⟩
  · intro m hm
    exact ⟨(hmemo m hm).cid_le, (hmemo m hm).curcid, (hmemo m hm).groups, (hmemo m hm).last⟩
  · intro e he
    exact ⟨(hslots e he).cid_le, (hslots e he).source, (hslots e he).columns⟩

/-! ### The memo -/

section Memo

variable {m m' : Memo σ α}

/-- What a walk finds is listed and covers the row, and is kept as the last group. -/
theorem Memo.walk_eq_some (hlast : ∀ g ∈ m.lastGroup, g ∈ m.groups)
    (hwalk : m.walk rowNumber = (some g, m')) :
    g ∈ m.groups ∧ g.covers rowNumber = true ∧ m' = { m with lastGroup := some g } := by
  unfold Memo.walk at hwalk
  split at hwalk
  · next h hfilter =>
    obtain ⟨hsome, hcovers⟩ := filter_eq_some_iff.mp hfilter
    obtain ⟨hg, rfl⟩ := Prod.ext_iff.mp hwalk
    obtain rfl : h = g := by simpa using hg
    exact ⟨hlast h hsome, hcovers, by rw [← hsome]⟩
  · split at hwalk
    · next h hfind =>
      obtain ⟨hg, rfl⟩ := Prod.ext_iff.mp hwalk
      obtain rfl : h = g := by simpa using hg
      exact ⟨List.mem_of_find?_eq_some hfind, List.find?_some hfind, rfl⟩
    · exact absurd (congrArg Prod.fst hwalk) (by simp)

theorem MemoOk.walk (hm : MemoOk seen s m) : MemoOk seen s (m.walk rowNumber).2 := by
  cases hwalk : m.walk rowNumber with
  | mk found m' =>
    cases found with
    | some g =>
      obtain ⟨hg, -, rfl⟩ := Memo.walk_eq_some hm.last hwalk
      refine ⟨hm.cid_le, hm.curcid, hm.groups, ?_⟩
      intro h hh
      obtain rfl : g = h := by simpa using hh
      exact hg
    | none =>
      -- nothing was found, and nothing is noted
      have heq : m' = m := by
        unfold Memo.walk at hwalk
        split at hwalk
        · exact absurd (congrArg Prod.fst hwalk) (by simp)
        · split at hwalk
          · exact absurd (congrArg Prod.fst hwalk) (by simp)
          · exact (congrArg Prod.snd hwalk).symm
      rw [heq]
      exact hm

/-- A fresh list is walked as an uncached read walks it. -/
theorem walk_fillMemo : ((s.fillMemo seen storageId content curcid).walk rowNumber).1 =
    s.readRowGroup seen (.mvcc content curcid) storageId rowNumber := by
  unfold Memo.walk readRowGroup
  cases hfind : (s.readRowGroupList seen (.mvcc content curcid) storageId).find?
    (Group.covers rowNumber) with
  | some g | none => simp [fillMemo, hfind]

variable [DecidableEq σ]

theorem memoOk_putMemo (hs : ∀ e ∈ s.memo, MemoOk seen s e) (hm : MemoOk seen s m) :
    ∀ e ∈ (s.putMemo m).memo, MemoOk seen s e := by
  intro e he
  rcases List.mem_cons.mp (List.mem_of_mem_take he) with rfl | he
  · exact hm
  · exact hs e (List.mem_filter.mp he).1

/-- The memo is transparent. -/
theorem Inv.lookup_eq (hinv : Inv seen s) (hcid : s.cid < curcid)
    (hdropped : storageId ∉ s.dropped) :
    (s.lookup seen (.mvcc content curcid) storageId rowNumber).1 =
      s.readRowGroup seen (.mvcc content curcid) storageId rowNumber ∧
    ∃ memo, (s.lookup seen (.mvcc content curcid) storageId rowNumber).2 = { s with memo := memo } ∧
      ∀ e ∈ memo, MemoOk seen s e := by
  have hfresh : MemoOk seen s ((s.fillMemo seen storageId content curcid).walk rowNumber).2 :=
    MemoOk.walk ⟨le_refl _, fun _ => hcid, fun _ _ hg => hg, nofun⟩
  unfold lookup
  dsimp only
  split
  · next m hfind =>
    have hm := hinv.memo m (List.mem_of_find?_eq_some hfind)
    have hkey := List.find?_some hfind
    obtain ⟨rfl, hmcid, rfl, rfl⟩ := of_decide_eq_true hkey
    split
    · next g m' hwalk =>
      -- the list is of this command, so that what it shows is there
      obtain ⟨hg, hcovers, -⟩ := Memo.walk_eq_some hm.last hwalk
      refine ⟨?_, _, rfl, memoOk_putMemo hinv.memo ?_⟩
      · exact (hinv.readRowGroup_eq_of_mem hcid hdropped (hm.groups hmcid g hg) hcovers).symm
      · have hwalked : MemoOk seen s (m.walk rowNumber).2 := hm.walk
        rwa [hwalk] at hwalked
    · exact ⟨walk_fillMemo, _, rfl, memoOk_putMemo hinv.memo hfresh⟩
  · exact ⟨walk_fillMemo, _, rfl, memoOk_putMemo hinv.memo hfresh⟩

end Memo

/-! ### The slots -/

/-- Groups of one geometry that come from one buffer have the same columns. -/
theorem columns_eq_of_buffer (hstorage : g.storageId = h.storageId)
    (hnumber : g.groupNumber = h.groupNumber)
    (hcount : g.rowCount = h.rowCount) (hnatts : g.natts = h.natts)
    (hrows : g.rows <+: h.rows ∨ h.rows <+: g.rows) : g.columns natts = h.columns natts := by
  have heq : g.rows = h.rows := by
    rcases hrows with hrows | hrows
    · exact hrows.eq_of_length hcount
    · exact (hrows.eq_of_length hcount.symm).symm
  unfold Group.columns Group.chunk
  rw [hstorage, hnumber, hnatts, heq]

theorem Inv.columns_eq (hinv : Inv seen s) {e : Slot α} (hv : v ∈ s.rowGroup) (hw : w ∈ s.rowGroup)
    (hv' : s.truncated v = false) (hw' : s.truncated w = false) (hev : e.describes v.val = true)
    (hew : e.describes w.val = true) : v.val.columns natts = w.val.columns natts := by
  obtain ⟨hstorage, hnumber, -, hcount, -⟩ := of_decide_eq_true hev
  obtain ⟨hstorage', hnumber', -, hcount', -⟩ := of_decide_eq_true hew
  obtain ⟨-, hnatts, hrows⟩ := hinv.buffers v hv w hw hv' hw' (hstorage.symm.trans hstorage')
    (hnumber.symm.trans hnumber')
  exact columns_eq_of_buffer (hstorage.symm.trans hstorage') (hnumber.symm.trans hnumber')
    (hcount.symm.trans hcount') hnatts hrows

/-- The slots are transparent for a group whose own chunk rows the snapshot reads. -/
theorem Inv.fetchGroup_eq {snapshot : Snapshot σ} (hinv : Inv seen s) (hv : v ∈ s.rowGroup)
    (htrunc : s.truncated v = false)
    (hcolumns : s.readColumns seen snapshot v.val.storageId v.val.groupNumber natts =
      v.val.columns natts) :
    (s.fetchGroup seen snapshot v.val natts).1 = v.val.columns natts ∧
    ∃ slots, (s.fetchGroup seen snapshot v.val natts).2 = { s with slots := slots } ∧
      ∀ e ∈ slots, SlotOk s e := by
  have hdescribes : (s.fillSlot seen snapshot v.val natts).describes v.val = true := by
    simp [fillSlot, Slot.describes]
  have hfresh : SlotOk s (s.fillSlot seen snapshot v.val natts) := by
    refine ⟨le_refl _, fun _ => ⟨v, hv, hdescribes⟩, fun _ w hw hw' hew => ?_⟩
    exact hcolumns.trans (hinv.columns_eq hv hw htrunc hw' hdescribes hew)
  have hput : ∀ e, SlotOk s e → ∀ e' ∈ (e :: (s.slots.filter fun e => decide (e.cid = s.cid)).filter
      fun e => !e.isFor v.val).take cacheEntries, SlotOk s e' := by
    intro e he e' he'
    rcases List.mem_cons.mp (List.mem_of_mem_take he') with rfl | he'
    · exact he
    · exact hinv.slots e' (List.mem_filter.mp (List.mem_filter.mp he').1).1
  unfold fetchGroup
  dsimp only
  split
  · next e hfind =>
    obtain ⟨he, hecid⟩ := List.mem_filter.mp (List.mem_of_find?_eq_some hfind)
    have hok := hinv.slots e he
    split
    · next hmatch =>
      obtain ⟨hev, rfl⟩ := hmatch
      exact ⟨hok.columns (of_decide_eq_true hecid) v hv htrunc hev, _, rfl, hput e hok⟩
    · exact ⟨hcolumns, _, rfl, hput _ hfresh⟩
  · exact ⟨hcolumns, _, rfl, hput _ hfresh⟩

/-! ### A fetch -/

section Fetch

variable [DecidableEq σ] [DecidableEq α] {snapshot : Snapshot σ} {decodes : Bool}

/-- **A fetch through the caches finds what one without them finds**, and changes nothing but
them. -/
theorem Inv.fetch_eq (hinv : Inv seen s) (hdropped : storageId ∉ s.dropped)
    (hbenign : Benign seen s (.fetch snapshot storageId rowNumber natts decodes)) :
    (s.fetch seen snapshot storageId rowNumber natts decodes).1 =
      s.fetchUncached seen snapshot storageId rowNumber natts decodes ∧
    ∃ memo slots, (s.fetch seen snapshot storageId rowNumber natts decodes).2 =
        { s with memo := memo, slots := slots } ∧
      (∀ m ∈ memo, MemoOk seen s m) ∧ ∀ e ∈ slots, SlotOk s e := by
  -- the group that is found is a version that was not truncated, and its own chunk rows are read
  have hsource : decodes = true →
    ∀ g ∈ s.readRowGroup seen (catalogSnapshot s.cid snapshot) storageId rowNumber,
      ∃ v ∈ s.rowGroup, v.val = g ∧ s.truncated v = false ∧
        s.readColumns seen (catalogSnapshot s.cid snapshot) g.storageId g.groupNumber natts =
          g.columns natts := by
    intro hdecodes g hg
    cases snapshot with
    | other f =>
      subst hdecodes
      obtain ⟨⟨v, hv, hvg, htrunc⟩, hcolumns⟩ := hbenign g hg
      exact ⟨v, hv, hvg, htrunc, hcolumns⟩
    | mvcc content curcid =>
      have hcid : s.cid < (if curcid ≤ s.cid then s.cid + 1 else curcid) := by split <;> omega
      obtain ⟨v, hv, hshows, hstorage, rfl⟩ :=
        mem_readRowGroupList.mp (List.mem_of_find?_eq_some hg)
      have hnot : v.val.storageId ∉ s.dropped := hstorage.symm ▸ hdropped
      exact ⟨v, hv, rfl, (hinv.standing hv hcid hnot hshows).untruncated,
        hinv.readColumns_eq hcid hv hnot hshows⟩
  have hlookup : (s.lookup seen (catalogSnapshot s.cid snapshot) storageId rowNumber).1 =
        s.readRowGroup seen (catalogSnapshot s.cid snapshot) storageId rowNumber ∧
      ∃ memo, (s.lookup seen (catalogSnapshot s.cid snapshot) storageId rowNumber).2 =
        { s with memo := memo } ∧
        ∀ e ∈ memo, MemoOk seen s e := by
    cases snapshot with
    | other f => exact ⟨rfl, s.memo, rfl, hinv.memo⟩
    | mvcc content curcid => exact hinv.lookup_eq (by split <;> omega) hdropped
  obtain ⟨hfound, memo, hstate, hmemo⟩ := hlookup
  unfold fetch fetchUncached
  dsimp only
  cases hres : s.lookup seen (catalogSnapshot s.cid snapshot) storageId rowNumber with
  | mk found s' =>
    rw [hres] at hfound hstate
    dsimp only at hfound hstate
    subst hstate
    rw [← hfound]
    cases found with
    | none => exact ⟨rfl, memo, s.slots, rfl, hmemo, hinv.slots⟩
    | some g =>
      cases decodes with
      | false => exact ⟨rfl, memo, s.slots, rfl, hmemo, hinv.slots⟩
      | true =>
        obtain ⟨v, hv, rfl, htrunc, hcolumns⟩ := hsource rfl g hfound.symm
        have hinv' : Inv seen { s with memo := memo } := hinv.withCaches hmemo hinv.slots
        obtain ⟨hserved, slots, hslots, hok⟩ := hinv'.fetchGroup_eq hv htrunc hcolumns
        refine ⟨?_, memo, slots, hslots, hmemo, fun e he =>
          ⟨(hok e he).cid_le, (hok e he).source, (hok e he).columns⟩⟩
        simp only [if_true, map_some, hcolumns]
        rw [hserved]

end Fetch

/-! ### Events keep the invariant -/

section Flush

theorem insertChunks_perm {sub : ℕ} {places : ℕ → ℕ} : (s.insertChunks sub g places).Perm
    (chunkVersions ⟨g, .own sub s.cid, none⟩ ++ s.columnChunk) := by
  unfold insertChunks chunkVersions
  -- the rows go in one after another, each at its place
  suffices h : ∀ (cs : List ℕ) (tab : List (Version Xid (Chunk α))),
      (cs.foldl (fun tab c => insertAt (places c) ⟨g.chunk c, .own sub s.cid, none⟩ tab) tab).Perm
        (cs.map (fun c => ⟨g.chunk c, .own sub s.cid, none⟩) ++ tab) from h _ _
  intro cs
  induction cs with
  | nil => exact fun tab => List.Perm.refl _
  | cons c cs ih =>
    intro tab
    refine (ih _).trans ?_
    refine ((insertAt_perm _ _ _).append_left _).trans ?_
    simp

theorem clashes_comm : g.clashes h = h.clashes g := by
  unfold Group.clashes
  rw [Bool.eq_iff_iff]
  simp only [Bool.and_eq_true, Bool.or_eq_true, decide_eq_true_eq, Bool.not_eq_true',
    decide_eq_false_iff_not]
  omega

theorem not_rolledBack (hv : Standing seen s content v) : s.rolledBack v = false := by
  unfold rolledBack
  split
  · next sub cid hxmin => simpa using hv.own sub cid hxmin
  · rfl

variable [DecidableEq σ] [DecidableEq α]

/-- A group that is written clashes with nothing that stands, and continues what was written before
under its number. -/
theorem Inv.flush {sub place : ℕ} {places : ℕ → ℕ} (hinv : Inv seen s)
    (hbenign : Benign seen s (.flush sub g place places))
    (hcan : s.canFlush sub g) : Inv seen { s with
      rowGroup := insertAt place ⟨g, .own sub s.cid, none⟩ s.rowGroup
      columnChunk := s.insertChunks sub g places } := by
  obtain ⟨hsub, -, hclash, hbuffer⟩ := hcan
  refine ⟨?_, ?_, hinv.truncations, ?_, ?_, ?_, ?_, ?_⟩
  · refine insertChunks_perm.trans ?_
    refine ((hinv.chunks.append_left _).trans ?_).trans ((insertAt_perm _ _ _).flatMap_right _).symm
    rw [List.flatMap_cons]
  · intro v hv
    rcases mem_insertAt.mp hv with rfl | hv
    · exact ⟨le_refl _, nofun⟩
    · exact hinv.past v hv
  · intro v hv x hx hxmax
    rcases mem_insertAt.mp hv with rfl | hv
    · cases hxmax
    · exact hinv.created v hv x hx hxmax
  · intro c v hv w hw hv' hw'
    have hfree : ∀ u ∈ s.rowGroup, Standing seen s c u → u.val.clashes g = false := by
      intro u hu hu'
      rcases hclash u hu with hrolled | htrunc | hfree
      · simp [not_rolledBack hu'] at hrolled
      · simp [hu'.untruncated] at htrunc
      · exact hfree
    have hv'' : Standing seen s c v := ⟨hv'.own, hv'.other, hv'.undeleted, hv'.untruncated⟩
    have hw'' : Standing seen s c w := ⟨hw'.own, hw'.other, hw'.undeleted, hw'.untruncated⟩
    intro hvw
    rcases mem_insertAt.mp hv with rfl | hv <;> rcases mem_insertAt.mp hw with rfl | hw
    · rfl
    · simp [clashes_comm (g := g), hfree w hw hw''] at hvw
    · simp [hfree v hv hv''] at hvw
    · exact hinv.one c v hv w hw hv'' hw'' hvw
  · intro v hv w hw hv' hw' hstorage hnumber
    rcases mem_insertAt.mp hv with rfl | hv <;> rcases mem_insertAt.mp hw with rfl | hw
    · exact ⟨rfl, rfl, .inl (List.prefix_refl _)⟩
    · obtain ⟨hfirst, hnatts, hrows⟩ := hbuffer w hw hw' hstorage.symm hnumber.symm
      exact ⟨hfirst.symm, hnatts.symm, .inr hrows⟩
    · obtain ⟨hfirst, hnatts, hrows⟩ := hbuffer v hv hv' hstorage hnumber
      exact ⟨hfirst, hnatts, .inl hrows⟩
    · exact hinv.buffers v hv w hw hv' hw' hstorage hnumber
  · -- what a list shows is still there
    intro m hm
    have hok := hinv.memo m hm
    refine ⟨hok.cid_le, hok.curcid, fun hmcid h hh => ?_, hok.last⟩
    obtain ⟨v, hv, hshows, hstorage, rfl⟩ := mem_readRowGroupList.mp (hok.groups hmcid h hh)
    exact mem_readRowGroupList.mpr ⟨v, mem_insertAt.mpr (.inr hv), hshows, hstorage, rfl⟩
  · intro e he
    have hok := hinv.slots e he
    refine ⟨hok.cid_le, fun hecid => ?_, fun hecid w hw hw' hew => ?_⟩
    · obtain ⟨v, hv, hev⟩ := hok.source hecid
      exact ⟨v, mem_insertAt.mpr (.inr hv), hev⟩
    · rcases mem_insertAt.mp hw with rfl | hw
      · -- an entry with the geometry of the new group came from the same buffer
        obtain ⟨v, hv, hv', hev⟩ := hbenign e he hecid hew
        obtain ⟨hstorage, hnumber, -, hcount, -⟩ := of_decide_eq_true hev
        obtain ⟨hstorage', hnumber', -, hcount', -⟩ := of_decide_eq_true hew
        obtain ⟨-, hnatts, hrows⟩ := hbuffer v hv hv' (hstorage.symm.trans hstorage')
          (hnumber.symm.trans hnumber')
        rw [hok.columns hecid v hv hv' hev]
        exact columns_eq_of_buffer (hstorage.symm.trans hstorage') (hnumber.symm.trans hnumber')
          (hcount.symm.trans hcount') hnatts (.inl hrows)
      · exact hok.columns hecid w hw hw' hew

end Flush

section Delete

/-- A row after a deletion: as before, or deleted now. -/
theorem mem_deleteRows {sub : ℕ} {β : Type} {r : β → Bool} {tab : List (Version Xid β)}
    {u : Version Xid β} :
    u ∈ s.deleteRows sub r tab ↔ ∃ v ∈ tab, u = if r v.val && !s.rolledBack v && s.undeleted v then
      { v with xmax := some (.own sub s.cid) } else v := by
  unfold deleteRows
  simp only [List.mem_map, eq_comm]

theorem chunks_deleteRows {sub : ℕ} {p : Group α → Bool} {q : Chunk α → Bool}
    (hpq : ∀ g c, q (Group.chunk g c) = p g)
    (tab : List (Version Xid (Group α))) :
    s.deleteRows sub q (tab.flatMap chunkVersions) =
      (s.deleteRows sub p tab).flatMap chunkVersions := by
  unfold deleteRows
  rw [List.map_flatMap, List.flatMap_map]
  refine List.flatMap_congr fun v _ => ?_
  -- the chunk rows have the stamps of their group, and are deleted with it
  have hsame : ∀ c, (q (v.val.chunk c) &&
    !s.rolledBack (⟨v.val.chunk c, v.xmin, v.xmax⟩ : Version Xid (Chunk α)) &&
      s.undeleted (⟨v.val.chunk c, v.xmin, v.xmax⟩ : Version Xid (Chunk α))) =
      (p v.val && !s.rolledBack v && s.undeleted v) := by
    intro c
    rw [hpq]
    rfl
  unfold chunkVersions
  rw [List.map_map]
  split
  · next hdel =>
    refine List.map_congr_left fun c _ => ?_
    simp only [Function.comp_apply, hsame, hdel, if_true]
  · next hdel =>
    refine List.map_congr_left fun c _ => ?_
    simp only [Function.comp_apply, hsame, hdel, if_false, Bool.false_eq_true]

/-- The rows of some groups of a relation that is there are deleted, with a reset of the memo. -/
theorem Inv.delete {sub : ℕ} {p : Group α → Bool} {q : Chunk α → Bool} {truncatedBy : List (ℕ × ℕ)}
    (hinv : Inv seen s) (hpq : ∀ g c, q (Group.chunk g c) = p g)
    (hp : ∀ g, p g = true → g.storageId ∉ s.dropped) (hmore : s.truncatedBy ⊆ truncatedBy)
    (htruncations : ∀ t ∈ truncatedBy, t.1 ∉ s.aborted ∨ t.2 ∈ s.dropped) :
    Inv seen { s with
      rowGroup := s.deleteRows sub p s.rowGroup, columnChunk := s.deleteRows sub q s.columnChunk
      truncatedBy := truncatedBy, memo := [] } := by
  -- a version afterwards that went with no truncation is one of before, of which the same holds
  have hback : ∀ u ∈ s.deleteRows sub p s.rowGroup, ∃ v ∈ s.rowGroup, u.val = v.val ∧
    u.xmin = v.xmin ∧
      (u.xmax = v.xmax ∨ u.xmax = some (.own sub s.cid) ∧ p v.val = true ∧
        s.undeleted v = true) := by
    intro u hu
    obtain ⟨v, hv, rfl⟩ := mem_deleteRows.mp hu
    split
    · next hdel =>
      simp only [Bool.and_eq_true] at hdel
      exact ⟨v, hv, rfl, rfl, .inr ⟨rfl, hdel.1.1, hdel.2⟩⟩
    · exact ⟨v, hv, rfl, rfl, .inl rfl⟩
  have huntruncated : ∀ u v, u.val = v.val → (u.xmax = v.xmax ∨ u.xmax = some (.own sub s.cid) ∧
      p v.val = true ∧ s.undeleted v = true) →
      State.truncated { s with truncatedBy := truncatedBy } u = false → s.truncated v = false := by
    intro u v hval hmax htrunc
    unfold truncated at htrunc ⊢
    rcases hmax with hmax | ⟨-, hpv, hundel⟩
    · rw [hmax, hval] at htrunc
      split at htrunc
      · rfl
      · simpa using fun hmem => of_decide_eq_false htrunc (hmore hmem)
      · exact htrunc
    · unfold undeleted at hundel
      split at hundel
      · rfl
      · next x cid hxmax =>
        simpa using fun hmem => (hinv.truncations _ hmem).elim
          (fun hnot => hnot (of_decide_eq_true hundel))
          (hp _ hpv)
      · cases hundel
  have hstanding : ∀ c u v, u.val = v.val → u.xmin = v.xmin → (u.xmax = v.xmax ∨
      u.xmax = some (.own sub s.cid) ∧ p v.val = true ∧ s.undeleted v = true) →
      Standing seen { s with truncatedBy := truncatedBy } c u → Standing seen s c v := by
    intro c u v hval hmin hmax hu
    refine ⟨hmin ▸ hu.own, hmin ▸ hu.other, fun x hxmax =>
      ?_, huntruncated u v hval hmax hu.untruncated⟩
    rcases hmax with hmax | ⟨-, -, hundel⟩
    · exact hu.undeleted x (hmax.trans hxmax)
    · simp [undeleted, hxmax] at hundel
  refine ⟨?_, ?_, htruncations, ?_, ?_, ?_, nofun, ?_⟩
  · have hchunks := hinv.chunks.map fun d => if q d.val && !s.rolledBack d && s.undeleted d then
      { d with xmax := some (Xid.own sub s.cid) } else d
    exact hchunks.trans (List.Perm.of_eq (chunks_deleteRows hpq s.rowGroup))
  · intro u hu
    obtain ⟨v, hv, -, hmin, hmax⟩ := hback u hu
    rw [hmin]
    refine ⟨(hinv.past v hv).1, ?_⟩
    rcases hmax with hmax | ⟨hmax, -, -⟩
    · rw [hmax]
      exact (hinv.past v hv).2
    · rw [hmax]
      intro d hd
      obtain rfl : Xid.own sub s.cid = d := by simpa using hd
      exact le_refl _
  · intro u hu x hx hxmax
    obtain ⟨v, hv, hval, hmin, hmax⟩ := hback u hu
    rcases hmax with hmax | ⟨hmax, -, -⟩
    · exact hmin.trans (hinv.created v hv x (hval ▸ hx) (hmax.symm.trans hxmax))
    · simp [hmax] at hxmax
  · intro c u hu w hw hu' hw' hclash
    obtain ⟨u₀, hu₀, hval, hmin, hmax⟩ := hback u hu
    obtain ⟨w₀, hw₀, hval', hmin', hmax'⟩ := hback w hw
    rw [hval, hval'] at hclash ⊢
    exact hinv.one c u₀ hu₀ w₀ hw₀
      (hstanding c u u₀ hval hmin hmax ⟨hu'.own, hu'.other, hu'.undeleted, hu'.untruncated⟩)
      (hstanding c w w₀ hval' hmin' hmax'
        ⟨hw'.own, hw'.other, hw'.undeleted, hw'.untruncated⟩) hclash
  · intro u hu w hw hu' hw' hstorage hnumber
    obtain ⟨u₀, hu₀, hval, -, hmax⟩ := hback u hu
    obtain ⟨w₀, hw₀, hval', -, hmax'⟩ := hback w hw
    rw [hval, hval'] at hstorage hnumber ⊢
    exact hinv.buffers u₀ hu₀ w₀ hw₀ (huntruncated u u₀ hval hmax hu')
      (huntruncated w w₀ hval' hmax' hw')
      hstorage hnumber
  · intro e he
    have hok := hinv.slots e he
    refine ⟨hok.cid_le, fun hecid => ?_, fun hecid u hu hu' heu => ?_⟩
    · obtain ⟨v, hv, hev⟩ := hok.source hecid
      refine ⟨_, mem_deleteRows.mpr ⟨v, hv, rfl⟩, ?_⟩
      split <;> exact hev
    · obtain ⟨v, hv, hval, -, hmax⟩ := hback u hu
      rw [hval] at heu ⊢
      exact hok.columns hecid v hv (huntruncated u v hval hmax hu') heu

end Delete

section Step

variable [DecidableEq σ] [DecidableEq α] {a : Action σ α}

theorem Inv.step (hinv : Inv seen s) (hbenign : Benign seen s a) (hs' : s.step seen a = some s') :
    Inv seen s' := by
  cases a with
  | flush sub g place places =>
    obtain ⟨hcan, hs'⟩ := ite_none_right_eq_some.mp hs'
    obtain rfl := Option.some.inj hs'
    exact hinv.flush hbenign hcan
  | retire sub storageId groupNumber =>
    obtain ⟨⟨-, hdropped⟩, hs'⟩ := ite_none_right_eq_some.mp hs'
    obtain rfl := Option.some.inj hs'
    refine hinv.delete (fun _ _ => rfl) ?_ (List.Subset.refl _) hinv.truncations
    intro g hg
    exact (of_decide_eq_true hg).1 ▸ hdropped
  | truncate sub storageId =>
    obtain ⟨⟨hsub, hdropped⟩, hs'⟩ := ite_none_right_eq_some.mp hs'
    obtain rfl := Option.some.inj hs'
    refine hinv.delete (fun _ _ => rfl) ?_ (List.subset_cons_self _ _) ?_
    · intro g hg
      exact of_decide_eq_true hg ▸ hdropped
    · refine List.forall_mem_cons.mpr ⟨?_, hinv.truncations⟩
      exact .inl hsub
  | abort subs =>
    obtain rfl := Option.some.inj hs'
    refine ⟨hinv.chunks, hinv.past, ?_, hinv.created, ?_, hinv.buffers, nofun, ?_⟩
    · -- a truncation that is rolled back takes the relation with it
      intro t ht
      by_cases hsub : t.1 ∈ subs
      · refine .inr (List.mem_append_right _ (List.mem_map.mpr ⟨t, ?_, rfl⟩))
        exact List.mem_filter.mpr ⟨ht, by simpa using hsub⟩
      · rcases hinv.truncations t ht with hnot | hdropped
        · exact .inl fun hmem => (List.mem_append.mp hmem).elim hnot hsub
        · exact .inr (List.mem_append_left _ hdropped)
    · intro c v hv w hw hv' hw'
      exact hinv.one c v hv w hw
        ⟨fun x cid hx hmem => hv'.own x cid hx (List.mem_append_left _ hmem), hv'.other,
          hv'.undeleted, hv'.untruncated⟩
        ⟨fun x cid hx hmem => hw'.own x cid hx (List.mem_append_left _ hmem), hw'.other,
          hw'.undeleted, hw'.untruncated⟩
    · intro e he
      exact ⟨(hinv.slots e he).cid_le, (hinv.slots e he).source, (hinv.slots e he).columns⟩
  | commandIncrement =>
    obtain rfl := Option.some.inj hs'
    have hpast : ∀ x, Past s.cid x → Past (s.cid + 1) x := by
      intro x hx
      cases x with
      | own sub cid => exact Nat.le_succ_of_le hx
      | other x => trivial
    refine ⟨hinv.chunks, ?_, hinv.truncations, hinv.created, ?_, hinv.buffers, ?_, ?_⟩
    · intro v hv
      exact ⟨hpast _ (hinv.past v hv).1, fun d hd => hpast d ((hinv.past v hv).2 d hd)⟩
    · intro c v hv w hw hv' hw'
      exact hinv.one c v hv w hw ⟨hv'.own, hv'.other, hv'.undeleted, hv'.untruncated⟩
        ⟨hw'.own, hw'.other, hw'.undeleted, hw'.untruncated⟩
    · -- the entries are of an earlier command now
      intro m hm
      have hle := (hinv.memo m hm).cid_le
      have hne : m.cid ≠ s.cid + 1 := by omega
      exact ⟨Nat.le_succ_of_le hle, fun h => (hne h).elim, fun h =>
        (hne h).elim, (hinv.memo m hm).last⟩
    · intro e he
      have hle := (hinv.slots e he).cid_le
      have hne : e.cid ≠ s.cid + 1 := by omega
      exact ⟨Nat.le_succ_of_le hle, fun h => (hne h).elim, fun h => (hne h).elim⟩
  | executorEnd =>
    obtain rfl := Option.some.inj hs'
    exact hinv.withCaches nofun nofun
  | fetch snapshot storageId rowNumber natts decodes =>
    obtain ⟨hdropped, hs'⟩ := ite_none_right_eq_some.mp hs'
    obtain ⟨-, memo, slots, hstate, hmemo, hslots⟩ := hinv.fetch_eq hdropped hbenign
    obtain rfl := Option.some.inj hs'
    rw [hstate]
    exact hinv.withCaches hmemo hslots

theorem inv_of_run {base : Base seen α} {acts : List (Action σ α)}
    (hok : AllSteps (fun s a => s.step seen a) (Benign seen) (start base) acts)
    (hrun : run (fun s a => s.step seen a) (start base) acts = some s) : Inv seen s :=
  run_invariant_of (fun _ _ _ hinv hbenign hs' => hinv.step hbenign hs') (Inv.start base) hok hrun

end Step

/-! ### Runs -/

/-- There are no other transactions. -/
def seeAll : Unit → ℕ → Bool := fun _ _ => true

/-- Nothing is committed yet. -/
def emptyBase : Base seeAll ℕ where
  truncatedBy := []
  rowGroup := []
  columnChunk := []
  others := nofun
  chunks := List.Perm.refl _
  one := nofun
  created := nofun
  buffers := nofun

/-- A kept buffer is written out in a savepoint, and again with one more row after the savepoint was
rolled back; the new catalog rows take a place before the old ones. -/
def reflushActs : List (Action Unit ℕ) :=
  [.flush 2 ⟨1, 7, 1, 0, 1, [[10]]⟩ 0 fun _ => 0, .abort [2],
    .flush 1 ⟨1, 7, 1, 8168, 1, [[10], [11]]⟩ 0 fun _ => 0]

/-- The second row has been fetched before, so the memo and the slot are hit. -/
def refetchActs : List (Action Unit ℕ) := reflushActs ++ [.fetch (.mvcc () 1) 1 2 1 true]

/-- The transaction that has created the table truncates it and writes one row again, which gets the
place of the old one; in the next command the row is fetched under a snapshot that shows
everything. -/
def truncatedActs : List (Action Unit ℕ) :=
  [.flush 1 ⟨1, 1, 1, 8168, 1, [[10]]⟩ 0 fun _ => 0, .truncate 1 1, .commandIncrement,
    .flush 1 ⟨1, 1, 1, 8168, 1, [[20]]⟩ 0 fun _ => 0, .commandIncrement,
    .fetch (.other fun _ _ => true) 1 1 1 true]

end PgColumnar.Cache
