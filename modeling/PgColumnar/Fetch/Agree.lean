import PgColumnar.Fetch.Joint

/-!
# An index fetch and a sequential scan

A row that the transaction can see is in the committed state or in the journal of the write
buffers, and it is in one place, but for the buffers that were written out and kept, whose rows
are in the catalog too.  A scan at this moment finds each of them in the catalog, and leaves out
the ones that are deleted.  A fetch finds them in the catalog or in a buffer; the buffer is asked
also where the catalog has the row deleted, and knows nothing of that.

## Main definitions

* `Marked` — a row that the transaction or an earlier one has deleted.

## Main results

* `eq_of_covers` — one group covers a row.
* `indexFetch_agrees_iff` — exactly when an index fetch and a scan agree on a row.
-/

namespace PgColumnar.Fetch

open Nested Bytes Write Delete Transaction List
open Option (bind_eq_some_iff isSome_iff_exists map_eq_some_iff)

variable {ρ : Type*} {base : Base ρ} {t t' : Transaction ρ} {g g' : RowGroup ρ} {row : ρ} {n : ℕ}

/-! ### Row numbers -/

/-- The rows of a group with their numbers. -/
def groupRows (g : RowGroup ρ) : List (ρ × ℕ) := g.rows.zipIdx g.firstRowNumber

theorem mem_groupRows : (row, n) ∈ groupRows g ↔
    g.firstRowNumber ≤ n ∧ g.rows[n - g.firstRowNumber]? = some row :=
  mk_mem_zipIdx_iff_le_and_getElem?_sub

theorem covers_iff_lt : (groupMeta g).covers n = true ↔
    g.firstRowNumber ≤ n ∧ n < g.firstRowNumber + g.rows.length := by
  unfold groupMeta RowGroupMeta.covers
  rw [Bool.and_eq_true, decide_eq_true_eq, decide_eq_true_eq]

theorem covers_iff : (groupMeta g).covers n = true ↔ ∃ row, (row, n) ∈ groupRows g := by
  simp only [covers_iff_lt, mem_groupRows]
  constructor
  · intro ⟨hle, hlt⟩
    exact ⟨g.rows[n - g.firstRowNumber], hle, getElem?_eq_getElem (by omega)⟩
  · intro ⟨row, hle, hrow⟩
    have := (List.getElem?_eq_some_iff.mp hrow).1
    exact ⟨hle, by omega⟩

variable {x : ρ × ℕ} {gs : List (RowGroup ρ)}

theorem mem_numberedRows : x ∈ numberedRows gs ↔ ∃ g ∈ gs, x ∈ groupRows g := mem_flatMap

/-- Where row numbers are given out once, one group covers a row. -/
theorem eq_of_covers (hnodup : ((numberedRows gs).map (·.2)).Nodup)
    (hg : g ∈ gs) (hg' : g' ∈ gs) (h : (groupMeta g).covers n = true)
    (h' : (groupMeta g').covers n = true) : g = g' := by
  rw [numberedRows, map_flatMap] at hnodup
  have hpair : gs.Pairwise (Function.onFun List.Disjoint fun g => (groupRows g).map (·.2)) :=
    (nodup_flatMap.mp hnodup).2
  obtain ⟨row, hrow⟩ := covers_iff.mp h
  obtain ⟨row', hrow'⟩ := covers_iff.mp h'
  by_contra hne
  have : Std.Symm (Function.onFun List.Disjoint fun g : RowGroup ρ => (groupRows g).map (·.2)) :=
    ⟨fun _ _ hab => List.Disjoint.symm hab⟩
  have hdisj : ((groupRows g).map (·.2)).Disjoint ((groupRows g').map (·.2)) :=
    hpair.forall hg hg' hne
  exact @hdisj n (mem_map.mpr ⟨_, hrow, rfl⟩) (mem_map.mpr ⟨_, hrow', rfl⟩)

/-! ### Buffered rows -/

theorem stateRow_eq_some {ws : WriteState ρ} : stateRow n ws = some row ↔
    (row, n) ∈ ws.numbered := by
  unfold stateRow WriteState.numbered
  cases ws.stripe with
  | none => simp
  | some st =>
    dsimp only
    rw [mk_mem_zipIdx_iff_le_and_getElem?_sub]
    constructor
    · intro h
      split_ifs at h
      exact ⟨by omega, h⟩
    · intro ⟨hle, hrow⟩
      have := (List.getElem?_eq_some_iff.mp hrow).1
      rw [if_neg (by omega)]
      exact hrow

/-- The rows that are in a buffer and not in the catalog. -/
def onlyBuffered (ws : WriteState ρ) : List (ρ × ℕ) :=
  if ws.flushedUnder.isSome then [] else ws.numbered

theorem countP_buffered (p : ρ × ℕ → Bool) (ws : WriteState ρ) :
    ws.buffered.countP (fun x => p x.2) =
      (onlyBuffered ws).countP p + ws.kept.countP (fun x => p x.2) := by
  unfold WriteState.buffered WriteState.kept onlyBuffered tag
  cases ws.flushedUnder <;> simp [countP_map, Function.comp_def]

theorem countP_flatMap_buffered (p : ρ × ℕ → Bool) (states : List (WriteState ρ)) :
    (states.flatMap WriteState.buffered).countP (fun x => p x.2) =
      (states.flatMap onlyBuffered).countP p +
        (states.flatMap WriteState.kept).countP (fun x => p x.2) := by
  induction states with
  | nil => rfl
  | cons ws states ih =>
    simp only [flatMap_cons, countP_append, ih, countP_buffered]
    omega

section Accounts

variable {first next : ℕ} {s : Stack} {states : List (WriteState ρ)} {groups : List (RowGroup ρ)}
  {j : Journal (ρ × ℕ)}

/-- The journal is in the catalog, and in the buffers that were not written out. -/
theorem perm_live (h : Write.Inv first next s states groups j) :
    (numberedRows groups ++ states.flatMap onlyBuffered).Perm (j.live.map (·.2)) := by
  classical
  rw [perm_iff_count]
  intro x
  have hb := h.balanced (fun y => y.2 == x)
  rw [countP_flatMap_buffered (· == x)] at hb
  have hcat : (catalogRows groups).countP (fun y => y.2 == x) = (numberedRows groups).count x := by
    rw [← map_snd_catalogRows, count_eq_countP, countP_map]
    rfl
  have hlive : (j.live.map (·.2)).count x = j.live.countP (fun y => y.2 == x) := by
    rw [count_eq_countP, countP_map]
    rfl
  rw [count_append, hlive, ← hcat, count_eq_countP]
  omega

theorem nodup_live (h : Write.Inv first next s states groups j) :
    ((j.live.map (·.2)).map (·.2)).Nodup := by
  have hn := h.numbers.nodup
  rw [usedNumbers, Journal.all, map_append] at hn
  exact (nodup_append.mp hn).1

theorem eq_of_live (h : Write.Inv first next s states groups j) {row' : ρ}
    (hrow : (row, n) ∈ j.live.map (·.2)) (hrow' : (row', n) ∈ j.live.map (·.2)) : row = row' := by
  have heq := inj_on_of_nodup_map (nodup_live h) hrow hrow' rfl
  exact congrArg Prod.fst heq

/-- No row number is in two buffers. -/
theorem ne_of_apart {a b : WriteState ρ} (hab : Apart a b) (ha : a.Room) (hb : b.Room)
    {row' : ρ} (hrow : (row, n) ∈ a.numbered) : (row', n) ∉ b.numbered := by
  intro hrow'
  unfold WriteState.numbered at hrow hrow'
  cases hsa : a.stripe with
  | none => simp [hsa] at hrow
  | some sa =>
    cases hsb : b.stripe with
    | none => simp [hsb] at hrow'
    | some sb =>
      simp only [hsa, hsb, mk_mem_zipIdx_iff_le_and_getElem?_sub] at hrow hrow'
      have hlen := (List.getElem?_eq_some_iff.mp hrow.2).1
      have hlen' := (List.getElem?_eq_some_iff.mp hrow'.2).1
      have hroom := ha sa hsa
      have hroom' := hb sb hsb
      rcases hab sa hsa sb hsb with hle | hle <;> omega

variable {ws : WriteState ρ}

/-- The rows of a kept buffer are in the catalog. -/
theorem mem_catalog_of_kept (h : Write.Inv first next s states groups j)
    (hroom : ∀ ws ∈ states, ws.Room) (hws : ws ∈ states) (hkept : ws.flushedUnder.isSome = true)
    (hrow : (row, n) ∈ ws.numbered) : (row, n) ∈ numberedRows groups := by
  classical
  obtain ⟨u, hu⟩ := isSome_iff_exists.mp hkept
  have hb := h.balanced (· == (u, (row, n)))
  -- the owner is another subtransaction, and no other buffer has the row
  have hnone : (states.flatMap WriteState.buffered).countP (· == (u, (row, n))) = 0 := by
    rw [countP_eq_zero]
    intro x hx heq
    obtain ⟨ws', hws', hmem⟩ := mem_flatMap.mp hx
    obtain ⟨y, hy, rfl⟩ := mem_map.mp hmem
    have heq' : ws'.subid = u ∧ y = (row, n) := by simpa using heq
    by_cases hsame : ws' = ws
    · have hlt := (h.held ws hws).owner_lt u hu
      rw [← heq'.1, hsame] at hlt
      omega
    · have : Std.Symm (@Apart ρ) := ⟨fun _ _ hab => hab.symm⟩
      have hapart := h.numbers.apart.forall hws' hws hsame
      exact ne_of_apart hapart (hroom ws' hws') (hroom ws hws) (heq'.2 ▸ hy) hrow
  have hpos : 0 < (states.flatMap WriteState.kept).countP (· == (u, (row, n))) := by
    rw [countP_pos_iff]
    refine ⟨(u, (row, n)), mem_flatMap.mpr ⟨ws, hws, ?_⟩, by simp⟩
    simp [WriteState.kept, hu, tag, hrow]
  have hcat : 0 < (catalogRows groups).countP (· == (u, (row, n))) := by omega
  obtain ⟨x, hx, heq⟩ := countP_pos_iff.mp hcat
  rw [← map_snd_catalogRows]
  refine mem_map.mpr ⟨x, hx, ?_⟩
  have hx' : x = (u, (row, n)) := by simpa using heq
  rw [hx']

/-- A row of a buffer is in the journal. -/
theorem mem_live_of_numbered (h : Write.Inv first next s states groups j)
    (hroom : ∀ ws ∈ states, ws.Room) (hws : ws ∈ states)
    (hrow : (row, n) ∈ ws.numbered) : (row, n) ∈ j.live.map (·.2) := by
  rw [← (perm_live h).mem_iff, mem_append]
  by_cases hkept : ws.flushedUnder.isSome = true
  · exact .inl (mem_catalog_of_kept h hroom hws hkept hrow)
  · refine .inr (mem_flatMap.mpr ⟨ws, hws, ?_⟩)
    simpa [onlyBuffered, hkept] using hrow

theorem bufferedRow_eq_some (h : Write.Inv first next s states groups j)
    (hroom : ∀ ws ∈ states, ws.Room) :
    bufferedRow states n = some row ↔ ∃ ws ∈ states, (row, n) ∈ ws.numbered := by
  constructor
  · intro hrow
    obtain ⟨ws, hws, hrow⟩ := exists_of_findSome?_eq_some hrow
    exact ⟨ws, hws, stateRow_eq_some.mp hrow⟩
  · intro ⟨ws, hws, hrow⟩
    have hsome : (bufferedRow states n).isSome = true := by
      unfold bufferedRow
      rw [findSome?_isSome_iff]
      exact ⟨ws, hws, by simp [stateRow_eq_some.mpr hrow]⟩
    obtain ⟨row', hrow'⟩ := isSome_iff_exists.mp hsome
    obtain ⟨ws', hws', hmem⟩ := exists_of_findSome?_eq_some hrow'
    have heq := eq_of_live h (mem_live_of_numbered h hroom hws hrow)
      (mem_live_of_numbered h hroom hws' (stateRow_eq_some.mp hmem))
    rw [hrow', heq]

/-- What is only in a buffer is not in the catalog. -/
theorem not_mem_catalog (h : Write.Inv first next s states groups j)
    (hws : ws ∈ states) (hopen : ws.flushedUnder.isSome = false) (hrow : (row, n) ∈ ws.numbered) :
    ∀ row', (row', n) ∉ numberedRows groups := by
  intro row' hmem
  have hnodup := ((perm_live h).map (·.2)).nodup_iff.mpr (nodup_live h)
  rw [map_append] at hnodup
  have hbuf : (row, n) ∈ states.flatMap onlyBuffered :=
    mem_flatMap.mpr ⟨ws, hws, by simpa [onlyBuffered, hopen] using hrow⟩
  exact (nodup_append.mp hnodup).2.2 n (mem_map_of_mem hmem) n (mem_map_of_mem hbuf) rfl

end Accounts

/-! ### The catalog -/

theorem Inv.bounds (h : Inv base t) (hx : x ∈ t.write.journal.live.map (·.2)) :
    base.metapage.reservedRowNumber ≤ x.2 :=
  (h.write.core.numbers.bounds x.2 (mem_map_of_mem (mem_append_left _ hx))).1

theorem numberedRows_append (gs gs' : List (RowGroup ρ)) :
    numberedRows (gs ++ gs') = numberedRows gs ++ numberedRows gs' := flatMap_append

theorem Inv.rowNumbers (h : Inv base t) : ((numberedRows (rowGroups base t)).map (·.2)).Nodup := by
  unfold rowGroups
  rw [numberedRows_append, map_append, nodup_append]
  refine ⟨base.rowNumbers, ?_, ?_⟩
  · have hnodup := ((perm_live h.write.core).map (·.2)).nodup_iff.mpr (nodup_live h.write.core)
    rw [map_append] at hnodup
    exact (nodup_append.mp hnodup).1
  · intro a ha b hb heq
    obtain ⟨x, hx, rfl⟩ := mem_map.mp ha
    obtain ⟨y, hy, rfl⟩ := mem_map.mp hb
    have hlt := base.below x hx
    have hle := h.bounds ((perm_live h.write.core).mem_iff.mp (mem_append_left _ hy))
    omega

theorem Inv.eq_of_covers (h : Inv base t) (hg : g ∈ rowGroups base t) (hg' : g' ∈ rowGroups base t)
    (hn : (groupMeta g).covers n = true) (hn' : (groupMeta g').covers n = true) : g = g' :=
  Fetch.eq_of_covers h.rowNumbers hg hg' hn hn'

theorem Inv.mem_groups (h : Inv base t) (hg : g ∈ rowGroups base t) :
    ∃ u, (u, groupMeta g) ∈ t.delete.session.rowGroups := by
  rw [h.groups]
  rcases mem_append.mp hg with hg | hg
  · exact ⟨0, mem_append_left _ (mem_map_of_mem hg)⟩
  · exact ⟨g.subid, mem_append_right _ (mem_map_of_mem hg)⟩

theorem Inv.exists_group (h : Inv base t) {x : ℕ × RowGroupMeta}
    (hx : x ∈ t.delete.session.rowGroups) :
    ∃ g ∈ rowGroups base t, x.2 = groupMeta g := by
  rw [h.groups] at hx
  rcases mem_append.mp hx with hx | hx
  · obtain ⟨g, hg, rfl⟩ := mem_map.mp hx
    exact ⟨g, mem_append_left _ hg, rfl⟩
  · obtain ⟨g, hg, rfl⟩ := mem_map.mp hx
    exact ⟨g, mem_append_right _ hg, rfl⟩

/-! ### Deleted rows -/

/-- The bit was set before the transaction, or the transaction has marked the row. -/
def Marked (base : Base ρ) (t : Transaction ρ) (g : RowGroup ρ) (n : ℕ) : Prop :=
  bitAt (base.stored.bitmap g.groupNumber) (n - g.firstRowNumber) = true ∨
    ∃ y ∈ t.delete.journal.live, y.2 = (g.groupNumber, n - g.firstRowNumber)

theorem Inv.isRow (h : Inv base t) (hg : g ∈ rowGroups base t)
    (hn : (groupMeta g).covers n = true) :
    IsRow t.delete.session.rowGroups g.groupNumber (n - g.firstRowNumber) := by
  obtain ⟨u, hu⟩ := h.mem_groups hg
  have hlt := covers_iff_lt.mp hn
  refine ⟨_, hu, rfl, ?_⟩
  dsimp only [groupMeta]
  omega

/-- A mark in memory is one of the group that covers the row. -/
theorem Inv.bufferedDeleted_iff (h : Inv base t) (hg : g ∈ rowGroups base t)
    (hn : (groupMeta g).covers n = true) : bufferedDeleted t.delete.session.buffers n = true ↔
      ∃ b ∈ t.delete.session.buffers, b.Marks g.groupNumber (n - g.firstRowNumber) := by
  unfold bufferedDeleted Buffer.Marks
  simp only [any_eq_true, Bool.and_eq_true]
  constructor
  · intro ⟨b, hb, c, hc, hcovers, hbit⟩
    obtain ⟨u, -, hmem⟩ := ((h.delete.buf_ok b hb).chunks c hc).known
    obtain ⟨g', hg', heq⟩ := h.exists_group hmem
    dsimp only at heq
    rw [heq] at hcovers hbit
    cases h.eq_of_covers hg hg' hn hcovers
    exact ⟨b, hb, c, hc, congrArg RowGroupMeta.groupNumber heq, hbit⟩
  · intro ⟨b, hb, c, hc, hnumber, hbit⟩
    obtain ⟨u, -, hmem⟩ := ((h.delete.buf_ok b hb).chunks c hc).known
    obtain ⟨v, hv⟩ := h.mem_groups hg
    have heq := congrArg Prod.snd (eq_of_groupNumber_eq h.delete.groups_nodup hmem hv hnumber)
    dsimp only at heq
    exact ⟨b, hb, c, hc, heq ▸ hn, heq ▸ hbit⟩

theorem Inv.marked_iff (h : Inv base t) (hg : g ∈ rowGroups base t)
    (hn : (groupMeta g).covers n = true) :
    (bufferedDeleted t.delete.session.buffers n || storedBit t g n) = true ↔ Marked base t g n := by
  have hcurrent := t.delete.session.stack.current_mem
  have hbal := h.delete.balance _ hcurrent _ _ (h.isRow hg hn)
  have hbufs : (∃ b ∈ t.delete.session.buffers, b.subid ≤ t.delete.session.stack.current ∧
      b.Marks g.groupNumber (n - g.firstRowNumber)) ↔
      ∃ b ∈ t.delete.session.buffers, b.Marks g.groupNumber (n - g.firstRowNumber) := by
    constructor
    · intro ⟨b, hb, _, hm⟩
      exact ⟨b, hb, hm⟩
    · intro ⟨b, hb, hm⟩
      exact ⟨b, hb, Stack.le_current (h.delete.held b hb).owner_mem, hm⟩
  have hlive : (∃ y ∈ t.delete.journal.live, y.1 ≤ t.delete.session.stack.current ∧
      y.2 = (g.groupNumber, n - g.firstRowNumber)) ↔
      ∃ y ∈ t.delete.journal.live, y.2 = (g.groupNumber, n - g.firstRowNumber) := by
    constructor
    · intro ⟨y, hy, _, heq⟩
      exact ⟨y, hy, heq⟩
    · intro ⟨y, hy, heq⟩
      exact ⟨y, hy, Stack.le_current (h.delete.live_mem y hy), heq⟩
  rw [hbufs, hlive] at hbal
  rw [Bool.or_eq_true, h.bufferedDeleted_iff hg hn, or_comm]
  exact hbal

theorem Inv.deleted_iff (h : Inv base t) : deleted base t n = true ↔
    ∃ g ∈ rowGroups base t, (groupMeta g).covers n = true ∧ Marked base t g n := by
  unfold deleted
  rw [Bool.or_eq_true]
  constructor
  · intro hdel
    rcases hdel with hbuf | hstored
    · obtain ⟨b, hb, hchunks⟩ := any_eq_true.mp hbuf
      obtain ⟨c, hc, hbit⟩ := any_eq_true.mp hchunks
      obtain ⟨u, -, hmem⟩ := ((h.delete.buf_ok b hb).chunks c hc).known
      obtain ⟨g, hg, heq⟩ := h.exists_group hmem
      have hn : (groupMeta g).covers n = true := heq ▸ (Bool.and_eq_true_iff.mp hbit).1
      exact ⟨g, hg, hn, (h.marked_iff hg hn).mp (by simp [hbuf])⟩
    · obtain ⟨g, hg, hbit⟩ := any_eq_true.mp hstored
      obtain ⟨hn, hbit⟩ := Bool.and_eq_true_iff.mp hbit
      exact ⟨g, hg, hn, (h.marked_iff hg hn).mp (by simp [hbit])⟩
  · intro ⟨g, hg, hn, hmarked⟩
    rcases Bool.or_eq_true_iff.mp ((h.marked_iff hg hn).mpr hmarked) with hbuf | hstored
    · exact .inl hbuf
    · exact .inr (any_eq_true.mpr ⟨g, hg, by simp [hn, hstored]⟩)

/-- A group that has a mark was there when the mark was made. -/
theorem Inv.mem_of_marked (h : Inv base t) (hmarked : Marked base t g n) :
    ∃ g' ∈ rowGroups base t, g'.groupNumber = g.groupNumber := by
  rcases hmarked with hbit | ⟨y, hy, heq⟩
  · -- a delete vector of the committed state goes with its group
    unfold Stored.bitmap storedBitmap at hbit
    split at hbit
    · simp at hbit
    · next r hfind =>
      obtain ⟨b, hb, rfl⟩ := mem_map.mp (mem_of_find?_eq_some hfind)
      have hnumber : b.1 = g.groupNumber := by simpa using find?_some hfind
      obtain ⟨g', hg', heq⟩ := mem_map.mp (base.vectors b hb)
      exact ⟨g', mem_append_left _ hg', heq.trans hnumber⟩
  · obtain ⟨m, ⟨u, -, hmem⟩, hnumber⟩ := h.delete.live_known y hy
    obtain ⟨g', hg', heq'⟩ := h.exists_group hmem
    refine ⟨g', hg', ?_⟩
    have hg'' : m.groupNumber = g'.groupNumber := congrArg RowGroupMeta.groupNumber heq'
    rw [← hg'', hnumber, heq]

/-! ### The fetch -/

theorem Inv.fetchRow_eq_some (h : Inv base t) : fetchRow base t n = some row ↔
    ∃ g ∈ rowGroups base t, (row, n) ∈ groupRows g ∧ ¬ Marked base t g n := by
  unfold fetchRow
  constructor
  · intro hrow
    split at hrow
    · cases hrow
    · next g hfind =>
      have hg := mem_of_find?_eq_some hfind
      have hn : (groupMeta g).covers n = true := by simpa using find?_some hfind
      split_ifs at hrow with hlive
      obtain ⟨row', hrow'⟩ := covers_iff.mp hn
      refine ⟨g, hg, mem_groupRows.mpr ⟨(mem_groupRows.mp hrow').1, hrow⟩, ?_⟩
      rwa [← h.marked_iff hg hn]
  · intro ⟨g, hg, hmem, hlive⟩
    have hn : (groupMeta g).covers n = true := covers_iff.mpr ⟨row, hmem⟩
    split
    · next hnone => exact (find?_eq_none.mp hnone g hg hn).elim
    · next g' hfind =>
      have hn' : (groupMeta g').covers n = true := by simpa using find?_some hfind
      cases h.eq_of_covers hg (mem_of_find?_eq_some hfind) hn hn'
      rw [if_neg fun hdel => hlive ((h.marked_iff hg hn).mp hdel)]
      exact (mem_groupRows.mp hmem).2

/-! ### The scan -/

/-- What the start of a scan leaves. -/
structure Scanned (base : Base ρ) (t t' : Transaction ρ) : Prop where
  inv : Inv base t'
  groups : ∃ new, rowGroups base t' = rowGroups base t ++ new
  journal : t'.write.journal = t.write.journal
  marks : t'.delete.journal = t.delete.journal
  buffered : t'.write.session.states.flatMap onlyBuffered = []
  stored : ∀ b ∈ t'.delete.session.buffers, ∀ N i, b.Marks N i → bitAt (storedBitmap
    t'.delete.session.deleteVectors t'.delete.session.stack.current N) i = true

/-- A buffer is written out and kept, or it is empty. -/
theorem onlyBuffered_flushWriteState (current : ℕ) (ws : WriteState ρ) :
    onlyBuffered (flushWriteState current ws).1 = [] := by
  unfold flushWriteState onlyBuffered
  dsimp only
  split
  · simp
  · split
    · next hempty =>
      have hcount : ws.stripeRowCount = 0 := by
        simp only [Bool.and_eq_true, beq_iff_eq] at hempty
        exact hempty.1.2
      have hnil : ws.numbered = [] := by
        unfold WriteState.stripeRowCount at hcount
        unfold WriteState.numbered
        cases hst : ws.stripe with
        | none => rfl
        | some st =>
          rw [hst] at hcount
          simp [length_eq_zero_iff.mp hcount]
      simp [hnil]
    · by_cases hkeep : ws.subid = current
      · have hnil := numbered_flushRowGroup current ws
        simp only [hkeep, ne_eq, not_true_eq_false, decide_false, Bool.false_eq_true, if_false]
        split
        · rfl
        · exact hnil
      · simp [hkeep]

variable {rowLock : Bool}

/-- Marks are written out and kept, or the buffer is empty. -/
theorem chunks_flushForScan {catalog : List RowGroupMeta} {current : ℕ}
    {b b' : Buffer} {rows rows' : List DeleteVectorRow}
    (hb : flushForScan catalog rowLock current b rows = some (b', rows')) :
    b'.chunks = [] ∨ b'.flushedUnder.isSome = true := by
  unfold flushForScan at hb
  split at hb
  · next hkept =>
    cases hb
    exact .inr hkept
  · obtain ⟨⟨b1, rows1⟩, hflush, heq⟩ := map_eq_some_iff.mp hb
    by_cases hkeep : b.subid = current
    · have hfalse : decide (b.subid ≠ current) = false := by simpa using hkeep
      rw [hfalse] at hflush heq
      cases heq
      exact .inl (Delete.History.chunks_flushBuffer hflush)
    · have htrue : decide (b.subid ≠ current) = true := by simpa using hkeep
      rw [htrue] at heq
      split at heq
      · cases heq
        exact .inr rfl
      · next hempty =>
        cases heq
        exact .inl (by simpa using hempty)

theorem Inv.scanned (h : Inv base t) (hstep : t.step (.scan rowLock) = some t') :
    Scanned base t t' := by
  have hinv' := h.step hstep
  obtain ⟨u, hu, hdel⟩ := bind_eq_some_iff.mp hstep
  have hwrite := h.stepWrite (by simp) hu
  obtain ⟨d, hd, rfl⟩ := map_eq_some_iff.mp hdel
  obtain ⟨s, hs, rfl⟩ := map_eq_some_iff.mp hd
  obtain ⟨⟨bufs, rows⟩, hflush, rfl⟩ := map_eq_some_iff.mp hs
  have hw := hwrite.step
  obtain ⟨new, hnew⟩ := hwrite.groups
  refine ⟨hinv', ⟨new, ?_⟩, ?_, hwrite.journal, ?_, ?_⟩
  · simp [rowGroups, hnew]
  · rw [← Option.some.inj hw]
  · rw [← Option.some.inj hw, flatMap_eq_nil_iff]
    intro ws hws
    obtain ⟨ws₀, -, rfl⟩ := mem_map.mp hws
    exact onlyBuffered_flushWriteState _ _
  · intro b hb N i hm
    have hkept := Delete.History.forall_flushEach
      (P := fun b => b.chunks = [] ∨ b.flushedUnder.isSome = true)
      (fun _ _ _ _ hb => chunks_flushForScan hb) hflush b hb
    rcases hkept with hempty | hkept
    · obtain ⟨c, hc, -⟩ := hm
      rw [hempty] at hc
      cases hc
    · -- a kept mask is in the view it was written for, and so in the current one
      obtain ⟨v, hv⟩ := isSome_iff_exists.mp hkept
      have hmem := (hinv'.delete.held b hb).under_mem v hv
      have hrow := (hinv'.delete.buf_ok b hb).isRow hm
      exact hinv'.delete.rows_inv.mono v hmem _ (Stack.current_mem _)
        (Stack.le_current hmem) N i hrow
        (hinv'.delete.kept b hb v hv N i hm)

/-- After the start of a scan the delete vectors say all that is marked. -/
theorem Scanned.storedBit_iff (h : Scanned base t t') (hg : g ∈ rowGroups base t')
    (hn : (groupMeta g).covers n = true) : storedBit t' g n = true ↔ Marked base t g n := by
  have hsame : Marked base t' g n ↔ Marked base t g n := by
    unfold Marked
    rw [h.marks]
  rw [← hsame, ← h.inv.marked_iff hg hn, Bool.or_eq_true]
  constructor
  · exact .inr
  · intro hor
    rcases hor with hbuf | hstored
    · obtain ⟨b, hb, hm⟩ := (h.inv.bufferedDeleted_iff hg hn).mp hbuf
      exact h.stored b hb _ _ hm
    · exact hstored

theorem Scanned.mem_scanRows (h : Scanned base t t') : (row, n) ∈ scanRows base t' ↔
    ∃ g ∈ rowGroups base t', (row, n) ∈ groupRows g ∧ ¬ Marked base t g n := by
  unfold scanRows
  simp only [mem_flatMap, mem_filter, Bool.not_eq_true', groupRows]
  constructor
  · intro ⟨g, hg, hmem, hbit⟩
    refine ⟨g, hg, hmem, ?_⟩
    rw [← h.storedBit_iff hg (covers_iff.mpr ⟨row, hmem⟩), hbit]
    simp
  · intro ⟨g, hg, hmem, hlive⟩
    refine ⟨g, hg, hmem, ?_⟩
    rw [← h.storedBit_iff hg (covers_iff.mpr ⟨row, hmem⟩)] at hlive
    simpa using hlive

/-- After the start of a scan every row of the journal is in the catalog. -/
theorem Scanned.mem_catalog (h : Scanned base t t') :
    x ∈ numberedRows t'.write.session.rowGroups ↔ x ∈ t.write.journal.live.map (·.2) := by
  have hperm := perm_live h.inv.write.core
  rw [h.buffered, append_nil, h.journal] at hperm
  exact hperm.mem_iff

/-! ### Agreement -/

theorem keptRow_iff : keptRow t n = true ↔
    ∃ ws ∈ t.write.session.states, ws.flushedUnder.isSome = true ∧
      ∃ row, (row, n) ∈ ws.numbered := by
  unfold keptRow
  simp only [any_eq_true, Bool.and_eq_true, isSome_iff_exists, stateRow_eq_some]

theorem indexFetch_eq_some : indexFetch base t n = some row ↔ fetchRow base t n = some row ∨
    fetchRow base t n = none ∧ bufferedRow t.write.session.states n = some row := by
  unfold indexFetch
  cases fetchRow base t n <;> simp

theorem Scanned.mem_rowGroups (h : Scanned base t t') (hg : g ∈ rowGroups base t) :
    g ∈ rowGroups base t' := by
  obtain ⟨new, hnew⟩ := h.groups
  rw [hnew]
  exact mem_append_left _ hg

/-- A group that has a mark was in the catalog before the scan's start. -/
theorem Scanned.mem_of_marked (h : Scanned base t t') (hinv : Inv base t)
    (hg : g ∈ rowGroups base t')
    (hn : (groupMeta g).covers n = true) (hmarked : Marked base t g n) : g ∈ rowGroups base t := by
  obtain ⟨g', hg', hnumber⟩ := hinv.mem_of_marked hmarked
  obtain ⟨u, hu⟩ := h.inv.mem_groups hg
  obtain ⟨v, hv⟩ := h.inv.mem_groups (h.mem_rowGroups hg')
  have hmeta : groupMeta g = groupMeta g' :=
    congrArg Prod.snd (eq_of_groupNumber_eq h.inv.delete.groups_nodup hu hv hnumber.symm)
  cases h.inv.eq_of_covers hg (h.mem_rowGroups hg') hn (hmeta ▸ hn)
  exact hg'

/-- A row that the fetch finds in a buffer is deleted, or the scan returns it. -/
theorem Scanned.mem_of_buffered (h : Scanned base t t') (hinv : Inv base t)
    (hrow : bufferedRow t.write.session.states n = some row) :
    (row, n) ∈ scanRows base t' ∨ keptRow t n = true ∧ deleted base t n = true := by
  obtain ⟨ws, hws, hmem⟩ := (bufferedRow_eq_some hinv.write.core hinv.write.room).mp hrow
  have hlive := mem_live_of_numbered hinv.write.core hinv.write.room hws hmem
  obtain ⟨g, hg, hmem'⟩ := mem_numberedRows.mp (h.mem_catalog.mpr hlive)
  have hg' : g ∈ rowGroups base t' := mem_append_right _ hg
  by_cases hmarked : Marked base t g n
  · right
    have hn := covers_iff.mpr ⟨row, hmem'⟩
    have hold := h.mem_of_marked hinv hg' hn hmarked
    refine ⟨keptRow_iff.mpr ⟨ws, hws, ?_, row, hmem⟩, hinv.deleted_iff.mpr ⟨g, hold, hn, hmarked⟩⟩
    -- the row is in the catalog already, and so not in a buffer alone
    by_contra hopen
    have hnot := not_mem_catalog hinv.write.core hws (by simpa using hopen) hmem row
    rcases mem_append.mp hold with hbase | hown
    · have hlt := base.below _ (mem_numberedRows.mpr ⟨g, hbase, hmem'⟩)
      have hle := hinv.bounds hlive
      omega
    · exact hnot (mem_numberedRows.mpr ⟨g, hown, hmem'⟩)
  · exact .inl (h.mem_scanRows.mpr ⟨g, hg', hmem', hmarked⟩)

/-- What the scan returns, the fetch finds. -/
theorem Scanned.indexFetch_of_mem (h : Scanned base t t') (hinv : Inv base t)
    (hscan : (row, n) ∈ scanRows base t') : indexFetch base t n = some row := by
  rw [indexFetch_eq_some]
  obtain ⟨g, hg, hmem, hlive⟩ := h.mem_scanRows.mp hscan
  have hn := covers_iff.mpr ⟨row, hmem⟩
  by_cases hold : g ∈ rowGroups base t
  · exact .inl (hinv.fetchRow_eq_some.mpr ⟨g, hold, hmem, hlive⟩)
  · right
    have hgone : ∀ g' ∈ rowGroups base t, (groupMeta g').covers n = false := by
      intro g' hg'
      by_contra hn'
      exact hold (h.inv.eq_of_covers hg (h.mem_rowGroups hg') hn (by simpa using hn') ▸ hg')
    constructor
    · cases hfetch : fetchRow base t n with
      | none => rfl
      | some row' =>
        obtain ⟨g', hg', hmem', -⟩ := hinv.fetchRow_eq_some.mp hfetch
        have hn' := covers_iff.mpr ⟨row', hmem'⟩
        simp [hgone g' hg'] at hn'
    · have hown : g ∈ t'.write.session.rowGroups := by
        rcases mem_append.mp hg with hbase | hown
        · exact (hold (mem_append_left _ hbase)).elim
        · exact hown
      have hjournal := h.mem_catalog.mp (mem_numberedRows.mpr ⟨g, hown, hmem⟩)
      rw [← (perm_live hinv.write.core).mem_iff, mem_append] at hjournal
      rcases hjournal with hcat | hbuf
      · obtain ⟨g', hg', hmem'⟩ := mem_numberedRows.mp hcat
        have hn' := covers_iff.mpr ⟨row, hmem'⟩
        simp [hgone g' (mem_append_right _ hg')] at hn'
      · obtain ⟨ws, hws, hmem'⟩ := mem_flatMap.mp hbuf
        refine (bufferedRow_eq_some hinv.write.core hinv.write.room).mpr ⟨ws, hws, ?_⟩
        unfold onlyBuffered at hmem'
        split at hmem'
        · cases hmem'
        · exact hmem'

/-- At every moment of a transaction an index fetch finds a row exactly if a sequential scan that
starts at that moment returns it, and with the same values, but for the rows that are deleted while
a buffer that was written out and kept holds them: these the fetch finds and the scan does not. -/
theorem indexFetch_agrees_iff (base : Base ρ) {acts : List (Action ρ)}
    (hrun : Run.run Transaction.step (start base) acts = some t) {rowLock : Bool}
    {rows : List (ρ × ℕ)} (hscan : seqScan base t rowLock = some rows) (n : ℕ) :
    (∀ row, indexFetch base t n = some row ↔ (row, n) ∈ rows) ↔
      ¬ (keptRow t n = true ∧ deleted base t n = true) := by
  have hinv := inv_of_run hrun
  obtain ⟨t', hstep, rfl⟩ := map_eq_some_iff.mp hscan
  have hscanned := hinv.scanned hstep
  constructor
  · intro hagree ⟨hkept, hdel⟩
    obtain ⟨ws, hws, -, row, hmem⟩ := keptRow_iff.mp hkept
    obtain ⟨g, hg, hn, hmarked⟩ := hinv.deleted_iff.mp hdel
    have hnone : fetchRow base t n = none := by
      cases hfetch : fetchRow base t n with
      | none => rfl
      | some row' =>
        obtain ⟨g', hg', hmem', hlive⟩ := hinv.fetchRow_eq_some.mp hfetch
        cases hinv.eq_of_covers hg hg' hn (covers_iff.mpr ⟨row', hmem'⟩)
        exact (hlive hmarked).elim
    have hbuf := (bufferedRow_eq_some hinv.write.core hinv.write.room).mpr ⟨ws, hws, hmem⟩
    obtain ⟨g', hg', hmem', hlive⟩ :=
      hscanned.mem_scanRows.mp ((hagree row).mp (indexFetch_eq_some.mpr (.inr ⟨hnone, hbuf⟩)))
    cases hscanned.inv.eq_of_covers (hscanned.mem_rowGroups hg) hg' hn (covers_iff.mpr ⟨row, hmem'⟩)
    exact hlive hmarked
  · intro hnot row
    constructor
    · intro hfetch
      rcases indexFetch_eq_some.mp hfetch with hfetch | ⟨-, hbuf⟩
      · obtain ⟨g, hg, hmem, hlive⟩ := hinv.fetchRow_eq_some.mp hfetch
        exact hscanned.mem_scanRows.mpr ⟨g, hscanned.mem_rowGroups hg, hmem, hlive⟩
      · exact (hscanned.mem_of_buffered hinv hbuf).resolve_right hnot
    · exact hscanned.indexFetch_of_mem hinv

/-- A table with one row group of two rows. -/
def twoRows : Base ℕ where
  metapage := ⟨2, 1001⟩
  rowGroups := [⟨1, 1, [10, 20], 0⟩]
  bitmaps := []
  groupNumbers := by decide
  rowNumbers := by decide
  below := by decide
  vectors := by decide

/-- A row is appended; a block below reads the table and deletes a committed row. -/
def blockActs : List (Action ℕ) :=
  [.insert 2 .least 0 30, .startSubXact, .scan true, .delete 1]

theorem indexFetch_agrees_iff_blockActs :
    ∃ t rows, Run.run Transaction.step (start twoRows) blockActs = some t ∧
      seqScan twoRows t true = some rows ∧
      ∀ row, indexFetch twoRows t 1001 = some row ↔ (row, 1001) ∈ rows := by
  have hcase : ((Run.run Transaction.step (start twoRows) blockActs).bind fun t =>
      (seqScan twoRows t true).map fun _ => (keptRow t 1001, deleted twoRows t 1001)) =
        some (true, false) := by decide +kernel
  obtain ⟨t, hrun, hcase⟩ := bind_eq_some_iff.mp hcase
  obtain ⟨rows, hscan, heq⟩ := map_eq_some_iff.mp hcase
  refine ⟨t, rows, hrun, hscan, (indexFetch_agrees_iff twoRows hrun hscan 1001).mpr ?_⟩
  simp only [Prod.mk.injEq] at heq
  simp [heq.2]

/-- A row is appended; a block below reads the table, which writes the row out and keeps the
buffer, and deletes the row. -/
def deleteKeptActs : List (Action ℕ) :=
  [.insert 2 .least 0 30, .startSubXact, .scan true, .delete 1001]

/-- The fetch finds the row that the block has deleted, and the scan does not return it. -/
theorem deleteKeptActs_differ :
    ∃ t rows, Run.run Transaction.step (start twoRows) deleteKeptActs = some t ∧
      seqScan twoRows t true = some rows ∧
      indexFetch twoRows t 1001 = some 30 ∧ (30, 1001) ∉ rows := by
  have hcase : ((Run.run Transaction.step (start twoRows) deleteKeptActs).bind fun t =>
      (seqScan twoRows t true).map fun rows => (indexFetch twoRows t 1001, rows)) =
        some (some 30, [(10, 1), (20, 2)]) := by decide +kernel
  obtain ⟨t, hrun, hcase⟩ := bind_eq_some_iff.mp hcase
  obtain ⟨rows, hscan, heq⟩ := map_eq_some_iff.mp hcase
  simp only [Prod.mk.injEq] at heq
  refine ⟨t, rows, hrun, hscan, heq.1, ?_⟩
  rw [heq.2]
  decide

end PgColumnar.Fetch
