import PgColumnar.Delete.Views

/-!
# No delete mark lost, none from an aborted subtransaction

For every open subtransaction `u` there is a view of the stored bitmaps that only
has the versions of `u` and the subtransactions above it: what would be stored if
everything below `u` were rolled back.  The invariant says of each of these views
that, together with the buffers of the subtransactions up to `u`, it holds exactly
the bits stored before the transaction and the bits marked in `u` and above.  A
kept mask is already in the view of the subtransaction it was written under, so it
may be dropped when that one's versions become the owner's.

## Main definitions

* `Inv` — where the marks of each open subtransaction are.

## Main results

* `Inv.step` — every action keeps it.
* `stored_bits_commit` — the bits stored at a commit are the marks that were not rolled back.
-/

namespace PgColumnar.Delete

open Nested Bytes List Nat
open Option (bind_eq_some_iff map_eq_some_iff)

variable {s : Stack} {groups : List (ℕ × RowGroupMeta)} {rows : List DeleteVectorRow}
  {base : ℕ → List Byte}

/-! ### The invariant -/

/-- The bit is set in one of the buffer's masks. -/
def Buffer.Marks (b : Buffer) (n i : ℕ) : Prop :=
  ∃ c ∈ b.chunks, c.group.groupNumber = n ∧ bitAt c.mask i = true

/-- What a buffer knows about row groups is visible to its owner. -/
structure BufferOk (groups : List (ℕ × RowGroupMeta)) (b : Buffer) : Prop where
  chunks : ∀ c ∈ b.chunks, ChunkOk groups b.subid c
  cache : ∀ g ∈ b.rowGroupCache, Known groups b.subid g
  last : ∀ g ∈ b.lastGroup, Known groups b.subid g

/-- What holds between two actions.  `balance` is the accounting, view by view. -/
structure Inv (base : ℕ → List Byte) (s : Stack) (groups : List (ℕ × RowGroupMeta))
    (rows : List DeleteVectorRow) (bufs : List Buffer) (live : List (ℕ × (ℕ × ℕ))) : Prop where
  groups_nodup : (groups.map (·.2.groupNumber)).Nodup
  groups_mem : ∀ x ∈ groups, x.1 ∈ s.ids ∨ x.1 = 0
  rows_inv : RowsInv base s groups rows
  held : ∀ b ∈ bufs, Held s b.subid b.flushedUnder
  buf_ok : ∀ b ∈ bufs, BufferOk groups b
  live_mem : ∀ y ∈ live, y.1 ∈ s.ids
  live_known : ∀ y ∈ live, ∃ g, Known groups y.1 g ∧ g.groupNumber = y.2.1
  kept : ∀ b ∈ bufs, ∀ u ∈ b.flushedUnder, ∀ n i, b.Marks n i →
    bitAt (storedBitmap rows u n) i = true
  balance : ∀ u ∈ s.ids, ∀ n i, IsRow groups n i →
    ((bitAt (storedBitmap rows u n) i = true ∨ ∃ b ∈ bufs, b.subid ≤ u ∧ b.Marks n i) ↔
      (bitAt (base n) i = true ∨ ∃ y ∈ live, y.1 ≤ u ∧ y.2 = (n, i)))

/-- The marks of a buffer are marks on rows. -/
theorem BufferOk.isRow {b : Buffer} (h : BufferOk groups b) {n i : ℕ} (hm : b.Marks n i) :
    IsRow groups n i := by
  obtain ⟨c, hc, rfl, hbit⟩ := hm
  obtain ⟨t, -, hmem⟩ := (h.chunks c hc).known
  exact ⟨(t, c.group), hmem, rfl, (h.chunks c hc).lt i hbit⟩

namespace Inv

variable {bufs rest : List Buffer} {live : List (ℕ × (ℕ × ℕ))} {b b' : Buffer}

theorem perm (h : Inv base s groups rows bufs live) {bufs' : List Buffer} (hp : bufs.Perm bufs') :
    Inv base s groups rows bufs' live :=
  { h with
    held := fun b hb => h.held b (hp.mem_iff.mpr hb)
    buf_ok := fun b hb => h.buf_ok b (hp.mem_iff.mpr hb)
    kept := fun b hb => h.kept b (hp.mem_iff.mpr hb)
    balance := by
      intro u hu n i hrow
      simp only [← hp.mem_iff]
      exact h.balance u hu n i hrow }

variable {chunks : List Chunk}

/-- The masks of a buffer, written under the current subtransaction. -/
theorem flushChunks (h : Inv base s groups rows (b :: rest) live) (hp : chunks.Perm b.chunks)
    (keep : Bool) :
    let rows' := (Delete.flushChunks s.current keep rows chunks).1
    RowsInv base s groups rows' ∧
      (∀ u < s.current, ∀ n, storedBitmap rows' u n = storedBitmap rows u n) ∧
      ∀ n i, IsRow groups n i → (bitAt (storedBitmap rows' s.current n) i = true ↔
        bitAt (storedBitmap rows s.current n) i = true ∨ b.Marks n i) := by
  have hle := Stack.le_current (h.held b mem_cons_self).owner_mem
  obtain ⟨hrows, hbelow, hcur⟩ := h.rows_inv.flushChunks keep h.groups_nodup
    (show ∀ c ∈ chunks, ChunkOk groups s.current c from fun c hm =>
      have hok := (h.buf_ok b mem_cons_self).chunks c (hp.mem_iff.mp hm)
      ⟨hok.known.mono hle, hok.length, hok.lt⟩)
  refine ⟨hrows, hbelow, fun n i hrow => ?_⟩
  rw [hcur n i hrow]
  simp only [hp.mem_iff, Buffer.Marks]

/-- No view loses a bit. -/
theorem grow (h : Inv base s groups rows (b :: rest) live) (hp : chunks.Perm b.chunks) (keep : Bool)
    {u n i : ℕ} (hu : u ∈ s.ids) (hrow : IsRow groups n i)
    (hold : bitAt (storedBitmap rows u n) i = true) :
    bitAt (storedBitmap (Delete.flushChunks s.current keep rows chunks).1 u n) i = true := by
  obtain ⟨-, hbelow, hcur⟩ := h.flushChunks hp keep
  rcases lt_or_eq_of_le (Stack.le_current hu) with hlt | rfl
  · rw [hbelow u hlt]
    exact hold
  · exact (hcur n i hrow).mpr (Or.inl hold)

theorem not_marks_reset {n i : ℕ} : ¬ b.reset.Marks n i := by
  rintro ⟨c, hm, -⟩
  cases hm

/-- A buffer of the current subtransaction is emptied into the catalog. -/
theorem flush (h : Inv base s groups rows (b :: rest) live) (hc : b.subid = s.current)
    (hp : chunks.Perm b.chunks) :
    Inv base s groups (Delete.flushChunks s.current false rows chunks).1
      (b.reset :: rest) live := by
  obtain ⟨hheld, hrest⟩ := forall_mem_cons.mp h.held
  obtain ⟨hrows, hbelow, hcur⟩ := h.flushChunks hp false
  refine ⟨h.groups_nodup, h.groups_mem, hrows, forall_mem_cons.mpr ⟨hheld, hrest⟩, ?_, h.live_mem,
    h.live_known, ?_, ?_⟩
  · refine forall_mem_cons.mpr ⟨?_, fun w hw => h.buf_ok w (mem_cons_of_mem _ hw)⟩
    exact ⟨by simp [Buffer.reset], by simp [Buffer.reset], by simp [Buffer.reset]⟩
  · refine forall_mem_cons.mpr ⟨fun u _ n i hm =>
      absurd hm not_marks_reset, fun w hw u hu n i hm => ?_⟩
    have hw' := mem_cons_of_mem b hw
    exact h.grow hp false ((hrest w hw).under_mem u hu) ((h.buf_ok w hw').isRow hm)
      (h.kept w hw' u hu n i hm)
  · intro u hu n i hrow
    rw [← h.balance u hu n i hrow]
    rcases lt_or_eq_of_le (Stack.le_current hu) with hlt | rfl
    · -- views above the current subtransaction do not have this buffer either
      have hnot : ¬ b.subid ≤ u := by omega
      have hnot' : ¬ b.reset.subid ≤ u := hnot
      rw [hbelow u hlt]
      simp only [mem_cons, exists_eq_or_imp, hnot, hnot', false_and, false_or]
    · have hle : b.subid ≤ s.current := by omega
      rw [hcur n i hrow]
      simp only [mem_cons, exists_eq_or_imp, not_marks_reset, and_false, false_or, hle, true_and,
        or_assoc]

/-- An enclosing subtransaction's buffer is written out and kept. -/
theorem flushKept (h : Inv base s groups rows (b :: rest) live) (hc : b.subid ≠ s.current)
    (hp : chunks.Perm b.chunks) :
    Inv base s groups (Delete.flushChunks s.current true rows chunks).1
      ({ b with chunks := chunks, flushedUnder := some s.current } :: rest) live := by
  obtain ⟨hheld, hrest⟩ := forall_mem_cons.mp h.held
  obtain ⟨hb, hbufs⟩ := forall_mem_cons.mp h.buf_ok
  obtain ⟨hrows, hbelow, hcur⟩ := h.flushChunks hp true
  have hiff : ∀ n i,
    ({ b with chunks := chunks, flushedUnder := some s.current } : Buffer).Marks n i ↔
      b.Marks n i := by
    intro n i
    simp only [hp.mem_iff, Buffer.Marks]
  refine ⟨h.groups_nodup, h.groups_mem, hrows, ?_, ?_, h.live_mem, h.live_known, ?_, ?_⟩
  · exact forall_mem_cons.mpr ⟨Held.current hheld.owner_mem hc, hrest⟩
  · refine forall_mem_cons.mpr ⟨?_, hbufs⟩
    exact ⟨fun c hm => hb.chunks c (hp.mem_iff.mp hm), hb.cache, hb.last⟩
  · refine forall_mem_cons.mpr ⟨fun u hu n i hm => ?_, fun w hw u hu n i hm => ?_⟩
    · cases hu
      have hm' := (hiff n i).mp hm
      exact (hcur n i (hb.isRow hm')).mpr (Or.inr hm')
    · exact h.grow hp true ((hrest w hw).under_mem u hu) ((hbufs w hw).isRow hm)
        (h.kept w (mem_cons_of_mem _ hw) u hu n i hm)
  · intro u hu n i hrow
    rw [← h.balance u hu n i hrow]
    simp only [mem_cons, exists_eq_or_imp, hiff]
    rcases lt_or_eq_of_le (Stack.le_current hu) with hlt | rfl
    · rw [hbelow u hlt]
    · have hle : b.subid ≤ s.current := Stack.le_current hheld.owner_mem
      rw [hcur n i hrow]
      simp only [hle, true_and]
      tauto

/-- An empty buffer of the current subtransaction may be added. -/
theorem addEmpty (h : Inv base s groups rows rest live) :
    Inv base s groups rows (⟨s.current, [], [], none, none⟩ :: rest) live := by
  have hno : ∀ n i, ¬ (⟨s.current, [], [], none, none⟩ : Buffer).Marks n i := by
    rintro n i ⟨c, hm, -⟩
    cases hm
  refine { h with held := ?_, buf_ok := ?_, kept := ?_, balance := ?_ }
  · refine forall_mem_cons.mpr ⟨?_, h.held⟩
    exact Held.none s.current_mem
  · refine forall_mem_cons.mpr ⟨?_, h.buf_ok⟩
    exact ⟨by simp, by simp, by simp⟩
  · refine forall_mem_cons.mpr ⟨?_, h.kept⟩
    intro u hu
    cases hu
  · intro u hu n i hrow
    simp only [mem_cons, exists_eq_or_imp, hno, and_false, false_or]
    exact h.balance u hu n i hrow

end Inv

/-! ### Marking -/

variable {g : RowGroupMeta} {rowNumber : ℕ}

theorem findRowGroup_spec (hg : ∀ x ∈ groups, x.1 ≤ s.current) {b b1 : Buffer}
    (hb : BufferOk groups b) (hc : b.subid = s.current)
    (h : findRowGroup (groups.map (·.2)) b rowNumber = some (g, b1)) :
    Known groups b.subid g ∧ g.covers rowNumber = true ∧ b1.subid = b.subid ∧
      b1.flushedUnder = b.flushedUnder ∧ b1.chunks = b.chunks ∧ BufferOk groups b1 := by
  have hcat : ∀ g ∈ groups.map (·.2), Known groups b.subid g := by
    intro g hm
    obtain ⟨x, hx, rfl⟩ := mem_map.mp hm
    exact ⟨x.1, hc ▸ hg x hx, hx⟩
  unfold findRowGroup at h
  split at h
  · next g' hlast =>
    cases h
    rw [Option.filter_eq_some_iff] at hlast
    exact ⟨hb.last _ hlast.1, hlast.2, rfl, rfl, rfl, hb⟩
  · split at h
    · next g' hfind =>
      cases h
      have hk := hb.cache _ (mem_of_find?_eq_some hfind)
      have hcov := find?_some hfind
      refine ⟨hk, hcov, rfl, rfl, rfl, hb.chunks, hb.cache, ?_⟩
      intro g' hg'
      cases hg'
      exact hk
    · split at h
      · next g' hfind =>
        cases h
        have hk := hcat _ (mem_of_find?_eq_some hfind)
        have hcov := find?_some hfind
        refine ⟨hk, hcov, rfl, rfl, rfl, hb.chunks, hcat, ?_⟩
        intro g' hg'
        cases hg'
        exact hk
      · cases h

theorem markChunk_spec (hn : (groups.map (·.2.groupNumber)).Nodup) {v i : ℕ}
    (hg : Known groups v g) (hi : i < g.rowCount) {chunks : List Chunk}
    (hc : ∀ c ∈ chunks, ChunkOk groups v c) :
    (∀ c ∈ markChunk g i chunks, ChunkOk groups v c) ∧
      ∀ n k, (∃ c ∈ markChunk g i chunks, c.group.groupNumber = n ∧ bitAt c.mask k = true) ↔
        (∃ c ∈ chunks, c.group.groupNumber = n ∧ bitAt c.mask k = true) ∨
          (g.groupNumber, i) = (n, k) := by
  -- one bit more in a chunk of the group
  have hset : ∀ c : Chunk, c.group = g → c.mask.length = g.maskLen →
      (∀ k, bitAt c.mask k = true → k < g.rowCount) →
      ChunkOk groups v { c with mask := setBit c.mask i } ∧
        ∀ k, bitAt (setBit c.mask i) k = true ↔ bitAt c.mask k = true ∨ i = k := by
    intro c hcg hlen hlt
    have hbit : ∀ k, bitAt (setBit c.mask i) k = true ↔ bitAt c.mask k = true ∨ i = k := by
      intro k
      rw [bitAt_setBit (by rw [hlen]; exact RowGroupMeta.lt_maskLen hi), Bool.or_eq_true,
        decide_eq_true_eq, eq_comm (a := k)]
    refine ⟨⟨hcg ▸ hg, by simp [hlen, hcg], ?_⟩, hbit⟩
    intro k hk
    rcases (hbit k).mp hk with hk | rfl
    · exact hcg ▸ hlt k hk
    · exact hcg ▸ hi
  induction chunks with
  | nil =>
    obtain ⟨hok, hbit⟩ := hset ⟨g, zeros g.maskLen⟩ rfl (by simp) (by simp)
    refine ⟨?_, ?_⟩
    · intro c hm
      cases mem_singleton.mp hm
      exact hok
    · intro n k
      simp only [markChunk, mem_singleton, exists_eq_left, hbit, bitAt_zeros,
        Bool.false_eq_true, false_or, not_mem_nil, false_and, exists_false, Prod.mk.injEq]
  | cons c chunks ih =>
    have hcok := hc c mem_cons_self
    have hrest := fun c hm => hc c (mem_cons_of_mem _ hm)
    rw [markChunk]
    split
    · next hkey =>
      have hcg : c.group = g := by
        obtain ⟨t, -, hm⟩ := hcok.known
        obtain ⟨t', -, hm'⟩ := hg
        exact congrArg Prod.snd (eq_of_groupNumber_eq hn hm hm' hkey.1)
      obtain ⟨hok, hbit⟩ := hset c hcg (hcg ▸ hcok.length) (hcg ▸ hcok.lt)
      refine ⟨?_, ?_⟩
      · refine forall_mem_cons.mpr ⟨?_, hrest⟩
        exact hok
      · intro n k
        simp only [mem_cons, exists_eq_or_imp, hbit, hcg, Prod.mk.injEq]
        constructor
        · rintro (⟨hnum, hk | hk⟩ | hr)
          · exact Or.inl (Or.inl ⟨hnum, hk⟩)
          · exact Or.inr ⟨hnum, hk⟩
          · exact Or.inl (Or.inr hr)
        · rintro ((⟨hnum, hk⟩ | hr) | ⟨hnum, hk⟩)
          · exact Or.inl ⟨hnum, Or.inl hk⟩
          · exact Or.inr hr
          · exact Or.inl ⟨hnum, Or.inr hk⟩
    · obtain ⟨hok, hbit⟩ := ih hrest
      refine ⟨?_, ?_⟩
      · refine forall_mem_cons.mpr ⟨?_, hok⟩
        exact hcok
      · intro n k
        simp only [mem_cons, exists_eq_or_imp, or_assoc]
        exact or_congr_right (hbit n k)

theorem Inv.groups_le {bufs : List Buffer} {live : List (ℕ × (ℕ × ℕ))}
    (h : Inv base s groups rows bufs live) : ∀ x ∈ groups, x.1 ≤ s.current := by
  intro x hx
  rcases h.groups_mem x hx with hm | hm
  · exact Stack.le_current hm
  · omega

variable {b' : Buffer} {m : ℕ × ℕ}

/-- What a mark does to its buffer. -/
theorem markInBuffer_spec (hn : (groups.map (·.2.groupNumber)).Nodup)
    (hg : ∀ x ∈ groups, x.1 ≤ s.current) {b : Buffer}
    (hb : BufferOk groups b) (hc : b.subid = s.current)
    (hm : markInBuffer (groups.map (·.2)) rowNumber b = some (b', m)) :
    b'.subid = b.subid ∧ b'.flushedUnder = b.flushedUnder ∧ BufferOk groups b' ∧
      (∃ g, Known groups s.current g ∧ g.groupNumber = m.1) ∧
      ∀ n k, b'.Marks n k ↔ b.Marks n k ∨ m = (n, k) := by
  obtain ⟨⟨g, b1⟩, hfind, heq⟩ := map_eq_some_iff.mp hm
  obtain ⟨hknown, hcov, hsub, hunder, hchunks, hb1⟩ := findRowGroup_spec hg hb hc hfind
  have hi : rowNumber - g.firstRowNumber < g.rowCount := by
    simp only [RowGroupMeta.covers, Bool.and_eq_true, decide_eq_true_eq] at hcov
    omega
  obtain ⟨hok, hbit⟩ := markChunk_spec hn hknown hi hb.chunks
  rw [← hchunks] at hok hbit
  cases heq
  refine ⟨hsub, hunder, ⟨?_, hb1.cache, hb1.last⟩, ⟨g, hc ▸ hknown, rfl⟩, ?_⟩
  · dsimp only
    rw [hsub]
    exact hok
  · intro n k
    refine (hbit n k).trans ?_
    rw [hchunks]
    rfl

/-- A mark in a buffer of the current subtransaction. -/
theorem Inv.markInBuffer {b : Buffer} {rest : List Buffer} {live : List (ℕ × (ℕ × ℕ))}
    (h : Inv base s groups rows (b :: rest) live)
    (hc : b.subid = s.current)
    (hm : markInBuffer (groups.map (·.2)) rowNumber b = some (b', m)) :
    Inv base s groups rows (b' :: rest) (live ++ [(s.current, m)]) := by
  have hheld := h.held b mem_cons_self
  obtain ⟨hsub, hunder, hok, hknown, hmarks⟩ :=
    markInBuffer_spec h.groups_nodup h.groups_le (h.buf_ok b mem_cons_self) hc hm
  have hcur : b'.subid = s.current := hsub.trans hc
  refine { h with held := ?_, buf_ok := ?_, live_mem := ?_, live_known := ?_, kept := ?_,
                  balance := ?_ }
  · refine forall_mem_cons.mpr ⟨?_, fun w hw => h.held w (mem_cons_of_mem _ hw)⟩
    rw [hsub, hunder]
    exact hheld
  · refine forall_mem_cons.mpr ⟨?_, fun w hw => h.buf_ok w (mem_cons_of_mem _ hw)⟩
    exact hok
  · refine forall_mem_append.mpr ⟨h.live_mem, forall_mem_singleton.mpr ?_⟩
    exact s.current_mem
  · refine forall_mem_append.mpr ⟨h.live_known, forall_mem_singleton.mpr ?_⟩
    exact hknown
  · refine forall_mem_cons.mpr ⟨?_, fun w hw u hu => h.kept w (mem_cons_of_mem _ hw) u hu⟩
    intro u hu
    -- the current subtransaction's buffer is not a kept one
    rw [hunder, hheld.under_eq_none hc] at hu
    cases hu
  · intro u hu n k hrow
    have hbal := h.balance u hu n k hrow
    simp only [mem_cons, hmarks, hcur, hc, mem_append, not_mem_nil, or_false,
      or_and_right, exists_or, exists_eq_left] at hbal ⊢
    rw [← or_assoc (a := bitAt (base n) k = true), ← hbal]
    by_cases hle : s.current ≤ u
    · simp only [hle, true_and]
      constructor
      · rintro (hold | (hmk | hnew) | hr)
        · exact Or.inl (Or.inl hold)
        · exact Or.inl (Or.inr (Or.inl hmk))
        · exact Or.inr hnew
        · exact Or.inl (Or.inr (Or.inr hr))
      · rintro ((hold | hmk | hr) | hnew)
        · exact Or.inl hold
        · exact Or.inr (Or.inl (Or.inl hmk))
        · exact Or.inr (Or.inr hr)
        · exact Or.inr (Or.inl (Or.inr hnew))
    · simp only [hle, false_and, or_false, false_or]

variable {bufs' : List Buffer}

theorem Inv.markRowDeleted {bufs : List Buffer} {live : List (ℕ × (ℕ × ℕ))}
    (h : Inv base s groups rows bufs live)
    (hm : markRowDeleted s.current (groups.map (·.2)) rowNumber bufs = some (bufs', m)) :
    Inv base s groups rows bufs' (live ++ [(s.current, m)]) := by
  -- the buffers passed over are carried along as `pre`
  suffices hpre : ∀ pre, Inv base s groups rows (bufs ++ pre) live →
      Inv base s groups rows (bufs' ++ pre) (live ++ [(s.current, m)]) by
    simpa using hpre [] (by simpa using h)
  clear h
  induction bufs generalizing bufs' with
  | nil =>
    intro pre h
    obtain ⟨r, hr, heq⟩ := map_eq_some_iff.mp hm
    cases heq
    exact Inv.markInBuffer h.addEmpty rfl hr
  | cons b bufs ih =>
    intro pre h
    rw [Delete.markRowDeleted] at hm
    split at hm
    · next hc =>
      obtain ⟨r, hr, heq⟩ := map_eq_some_iff.mp hm
      cases heq
      exact Inv.markInBuffer h hc hr
    · obtain ⟨r, hr, heq⟩ := map_eq_some_iff.mp hm
      cases heq
      have h1 := ih hr (b :: pre) (h.perm perm_middle.symm)
      exact h1.perm perm_middle

/-- Marks on a group number that no group has: there are none. -/
theorem Inv.insertRowGroup {bufs : List Buffer} {live : List (ℕ × (ℕ × ℕ))}
    (h : Inv base s groups rows bufs live)
    (hg : ¬ rowGroupExists (groups.map (·.2)) g.groupNumber) :
    Inv base s (groups ++ [(s.current, g)]) rows bufs live := by
  -- the number is new: no buffer, stored row or journal entry is about the group
  have hnew : ∀ x ∈ groups, x.2.groupNumber ≠ g.groupNumber := by
    intro x hx heq
    refine hg (any_eq_true.mpr ⟨x.2, mem_map_of_mem hx, ?_⟩)
    simpa using heq
  have hfresh : ∀ v g', Known groups v g' → g'.groupNumber ≠ g.groupNumber := by
    rintro v g' ⟨t, -, hm⟩
    exact hnew _ hm
  have hview : ∀ u, storedBitmap rows u g.groupNumber = base g.groupNumber := by
    intro u
    rw [← h.rows_inv.base_eq]
    refine storedBitmap_congr fun r hr hn => ?_
    have h0 : r.subid = 0 := by
      by_contra h0
      obtain ⟨g', hk, hg'⟩ := h.rows_inv.known r hr h0
      exact hfresh _ g' hk (hg'.trans hn)
    simp [h0]
  have hsplit : ∀ {n i}, IsRow (groups ++ [(s.current, g)]) n i →
      IsRow groups n i ∨ n = g.groupNumber := by
    rintro n i ⟨x, hx, hxn, hlt⟩
    rcases mem_append.mp hx with hx | hx
    · exact Or.inl ⟨x, hx, hxn, hlt⟩
    · cases mem_singleton.mp hx
      exact Or.inr hxn.symm
  refine ⟨?_, ?_, ⟨h.rows_inv.mem, ?_, h.rows_inv.base_eq, ?_⟩, h.held, ?_, h.live_mem, ?_,
    h.kept, ?_⟩
  · rw [map_append, nodup_append]
    refine ⟨h.groups_nodup, by simp, ?_⟩
    intro n hn m hm
    obtain ⟨x, hx, rfl⟩ := mem_map.mp hn
    rw [map_singleton, mem_singleton] at hm
    rw [hm]
    exact hnew x hx
  · refine forall_mem_append.mpr ⟨h.groups_mem, forall_mem_singleton.mpr ?_⟩
    exact Or.inl s.current_mem
  · intro r hr h0
    obtain ⟨g', hk, hn⟩ := h.rows_inv.known r hr h0
    exact ⟨g', hk.append _, hn⟩
  · intro u hu v hv huv n i hrow hbit
    rcases hsplit hrow with hrow | rfl
    · exact h.rows_inv.mono u hu v hv huv n i hrow hbit
    · rw [hview] at hbit ⊢
      exact hbit
  · intro b hb
    have hok := h.buf_ok b hb
    exact ⟨fun c hm => ⟨(hok.chunks c hm).known.append _, (hok.chunks c hm).length,
      (hok.chunks c hm).lt⟩, fun g' hm => (hok.cache g' hm).append _,
      fun g' hm => (hok.last g' hm).append _⟩
  · intro y hy
    obtain ⟨g', hk, hn⟩ := h.live_known y hy
    exact ⟨g', hk.append _, hn⟩
  · intro u hu n i hrow
    rcases hsplit hrow with hrow | rfl
    · exact h.balance u hu n i hrow
    · have hno1 : ¬ ∃ b ∈ bufs, b.subid ≤ u ∧ b.Marks g.groupNumber i := by
        rintro ⟨b, hb, -, c, hc, hn, -⟩
        exact hfresh _ _ ((h.buf_ok b hb).chunks c hc).known hn
      have hno2 : ¬ ∃ y ∈ live, y.1 ≤ u ∧ y.2 = (g.groupNumber, i) := by
        rintro ⟨y, hy, -, heq⟩
        obtain ⟨g', hk, hn⟩ := h.live_known y hy
        exact hfresh _ g' hk (hn.trans (congrArg Prod.fst heq))
      rw [hview]
      simp [hno1, hno2]

/-! ### Flushing the buffers -/

variable {rows' : List DeleteVectorRow}

theorem Inv.flushEach {f : Buffer → List DeleteVectorRow → Option (Buffer × List DeleteVectorRow)}
    {live : List (ℕ × (ℕ × ℕ))}
    (hf : ∀ {b b' rest rows rows'}, Inv base s groups rows (b :: rest) live →
      f b rows = some (b', rows') → Inv base s groups rows' (b' :: rest) live)
    {bufs : List Buffer}
    (h : Inv base s groups rows bufs live)
    (hr : flushEach f bufs rows = some (bufs', rows')) : Inv base s groups rows' bufs' live := by
  -- the buffers already visited are carried along as `pre`
  suffices hpre : ∀ pre, Inv base s groups rows (bufs ++ pre) live →
      Inv base s groups rows' (bufs' ++ pre) live by
    simpa using hpre [] (by simpa using h)
  clear h
  induction bufs generalizing rows bufs' with
  | nil =>
    intro pre h
    cases hr
    exact h
  | cons b bufs ih =>
    intro pre h
    rw [Delete.flushEach] at hr
    obtain ⟨⟨b1, rows1⟩, hb, hmap⟩ := bind_eq_some_iff.mp hr
    obtain ⟨⟨bufs1, rows2⟩, hrest, heq⟩ := map_eq_some_iff.mp hmap
    cases heq
    have h1 := hf h hb
    exact (ih hrest (b1 :: pre) (h1.perm perm_middle.symm)).perm perm_middle

variable {rowLock : Bool} {catalog : List RowGroupMeta} {keep : Bool}

/-- A flush that does not raise writes the masks out, if there are any. -/
theorem flushBuffer_cases
    (hr : flushBuffer catalog rowLock s.current keep b rows = some (b', rows')) :
    (b.chunks = [] ∧ b' = b ∧ rows' = rows) ∨ (b.chunks ≠ [] ∧ ∃ chunks, chunks.Perm b.chunks ∧
      rows' = (flushChunks s.current keep rows chunks).1 ∧
        b' = if keep then { b with chunks := chunks } else b.reset) := by
  unfold Delete.flushBuffer at hr
  split at hr
  · next hempty =>
    cases hr
    exact .inl ⟨isEmpty_iff.mp hempty, rfl, rfl⟩
  · next hne =>
    split at hr
    · cases hr
    · split at hr
      · cases hr
      · cases hr
        refine .inr ⟨fun h => hne (isEmpty_iff.mpr h), _, mergeSort_perm _ _, rfl, ?_⟩
        cases keep with
        | false => rfl
        | true => rw [flushChunks_keep]

/-- What a scan does to a buffer. -/
theorem flushForScan_cases (hr : flushForScan catalog rowLock s.current b rows = some (b', rows')) :
    (b' = b ∧ rows' = rows) ∨ (b.flushedUnder = none ∧ ∃ keep chunks, chunks.Perm b.chunks ∧
      rows' = (flushChunks s.current keep rows chunks).1 ∧
        ((b.subid = s.current ∧ keep = false ∧ b' = b.reset) ∨ (b.subid ≠ s.current ∧ keep = true ∧
          b' = { b with chunks := chunks, flushedUnder := some s.current }))) := by
  unfold Delete.flushForScan at hr
  split at hr
  · cases hr
    exact .inl ⟨rfl, rfl⟩
  · next hnone =>
    obtain ⟨⟨b1, rows1⟩, hflush, heq⟩ := map_eq_some_iff.mp hr
    rcases flushBuffer_cases hflush with ⟨hempty, rfl, rfl⟩ | ⟨hne, chunks, hp, rfl, rfl⟩
    · rw [hempty, if_neg (by simp)] at heq
      cases heq
      exact .inl ⟨rfl, rfl⟩
    · have hne' : chunks ≠ [] := fun h => hne (Perm.eq_nil (h ▸ hp.symm))
      by_cases hc : b.subid = s.current
      · simp [hc] at heq
        obtain ⟨rfl, rfl⟩ := heq
        exact .inr ⟨by simpa using hnone, false, chunks, hp, rfl, .inl ⟨hc, rfl, rfl⟩⟩
      · simp [hc, hne'] at heq
        obtain ⟨rfl, rfl⟩ := heq
        exact .inr ⟨by simpa using hnone, true, chunks, hp, rfl, .inr ⟨hc, rfl, rfl⟩⟩

theorem Inv.flushBuffer {rest : List Buffer} {live : List (ℕ × (ℕ × ℕ))}
    (h : Inv base s groups rows (b :: rest) live) (hc : b.subid = s.current)
    (hr : flushBuffer catalog rowLock s.current false b rows = some (b', rows')) :
    Inv base s groups rows' (b' :: rest) live := by
  rcases flushBuffer_cases hr with ⟨-, rfl, rfl⟩ | ⟨-, chunks, hp, rfl, rfl⟩
  · exact h
  · exact h.flush hc hp

theorem Inv.flushForScan {rest : List Buffer} {live : List (ℕ × (ℕ × ℕ))}
    (h : Inv base s groups rows (b :: rest) live)
    (hr : flushForScan catalog rowLock s.current b rows = some (b', rows')) :
    Inv base s groups rows' (b' :: rest) live := by
  rcases flushForScan_cases hr with ⟨rfl, rfl⟩ |
    ⟨-, keep, chunks, hp, rfl, ⟨hc, rfl, rfl⟩ | ⟨hc, rfl, rfl⟩⟩
  · exact h
  · exact h.flush hc hp
  · exact h.flushKept hc hp

/-! ### Subtransaction ends -/

theorem IsRow.promote {f : ℕ → ℕ} {n i : ℕ} :
    IsRow (groups.map (Prod.map f id)) n i ↔ IsRow groups n i := by
  unfold IsRow
  simp only [mem_map, exists_exists_and_eq_and, Prod.map_snd, id]

theorem promoteBuffer_subid (c p : ℕ) (b : Buffer) :
    (promoteBuffer c p b).subid = promote c p b.subid := by
  unfold promoteBuffer
  dsimp only
  split
  · split <;> rfl
  · rfl

/-- A committed buffer is the old one with its tags moved, or it has been emptied
because its owner's versions now hold its marks. -/
theorem promoteBuffer_cases (c p : ℕ) (b : Buffer) :
    (promoteBuffer c p b = ⟨promote c p b.subid, b.chunks, b.rowGroupCache, b.lastGroup,
        b.flushedUnder.map (promote c p)⟩ ∧
      ¬ (b.flushedUnder = some c ∧ p = promote c p b.subid)) ∨
    (promoteBuffer c p b = ⟨promote c p b.subid, [], [], none, none⟩ ∧
      b.flushedUnder = some c ∧ p = promote c p b.subid) := by
  unfold promoteBuffer
  by_cases hu : b.flushedUnder = some c
  · by_cases hp : p = promote c p b.subid
    · refine Or.inr ⟨?_, hu, hp⟩
      simp [hu, ← hp, Buffer.reset]
    · refine Or.inl ⟨?_, fun h => hp h.2⟩
      simp [hu, hp]
  · refine Or.inl ⟨?_, fun h => hu h.1⟩
    have hmap : b.flushedUnder.map (promote c p) = b.flushedUnder := by
      cases hb : b.flushedUnder with
      | none => rfl
      | some u =>
        have hne : u ≠ c := by
          rintro rfl
          exact hu hb
        simp [promote_of_ne hne]
    simp [hu, hmap]

namespace Inv

/-- A subtransaction that has just started has the view of the one above it. -/
theorem push {bufs : List Buffer} {live : List (ℕ × (ℕ × ℕ))}
    (h : Inv base s groups rows bufs live) : Inv base s.push groups rows bufs live := by
  have hmem : ∀ {u}, u ∈ s.ids → u ∈ s.push.ids := fun hu => Stack.mem_push.mpr (Or.inr hu)
  have hle : ∀ {u v}, u ∈ s.push.ids → v ∈ s.ids ∨ v = 0 →
      (v ≤ u ↔ v ≤ if u = s.next then s.current else u) := by
    intro u v hu hv
    split
    · next heq =>
      have h1 : v ≤ s.current := by
        rcases hv with hv | rfl
        · exact Stack.le_current hv
        · exact zero_le _
      have h2 := Stack.lt_next s.current_mem
      omega
    · exact Iff.rfl
  have hold : ∀ u ∈ s.push.ids, (if u = s.next then s.current else u) ∈ s.ids := by
    intro u hu
    split
    · exact s.current_mem
    · next hne => exact (Stack.mem_push.mp hu).resolve_left hne
  have hview : ∀ u ∈ s.push.ids, ∀ n,
      storedBitmap rows u n = storedBitmap rows (if u = s.next then s.current else u) n :=
    fun u hu n => storedBitmap_congr fun r hr _ => hle hu (h.rows_inv.mem r hr)
  refine ⟨h.groups_nodup, fun x hx => (h.groups_mem x hx).imp hmem id,
    ⟨fun r hr => (h.rows_inv.mem r hr).imp hmem id, h.rows_inv.known, h.rows_inv.base_eq, ?_⟩,
    fun b hb => (h.held b hb).push, h.buf_ok, fun y hy => hmem (h.live_mem y hy), h.live_known,
    h.kept, ?_⟩
  · intro u hu v hv huv n i hrow
    rw [hview u hu, hview v hv]
    refine h.rows_inv.mono _ (hold u hu) _ (hold v hv) ?_ n i hrow
    have h1 := Stack.le_current (hold u hu)
    have h2 := Stack.le_current (hold v hv)
    have h3 := Stack.lt_next s.current_mem
    split at h1 <;> split at h2 <;> split <;> omega
  · intro u hu n i hrow
    rw [hview u hu]
    refine Iff.trans ?_ ((h.balance _ (hold u hu) n i hrow).trans ?_)
    · refine or_congr_right (exists_congr fun b => and_congr_right fun hb => ?_)
      rw [hle hu (Or.inl (h.held b hb).owner_mem)]
    · refine or_congr_right (exists_congr fun y => and_congr_right fun hy => ?_)
      rw [hle hu (Or.inl (h.live_mem y hy))]

theorem commit {bufs : List Buffer} {live : List (ℕ × (ℕ × ℕ))} {t : Stack}
    (h : Inv base s groups rows bufs live) (ht : s.pop = some t) :
    Inv base t (groups.map (Prod.map (promote s.current t.current) id))
      (rows.map fun r => { r with subid := promote s.current t.current r.subid })
      (bufs.map (promoteBuffer s.current t.current))
      (live.map (Prod.map (promote s.current t.current) id)) := by
  obtain ⟨-, hlt, -⟩ := Stack.pop_eq_some ht
  have hmem0 : ∀ {u}, u ∈ s.ids ∨ u = 0 →
      promote s.current t.current u ∈ t.ids ∨ promote s.current t.current u = 0 := by
    rintro u (hu | rfl)
    · exact Or.inl (promote_mem ht hu)
    · refine Or.inr (promote_of_ne ?_)
      have := s.pos _ s.current_mem
      omega
  have hknown : ∀ {v g}, Known groups v g → v ∈ s.ids →
      Known (groups.map (Prod.map (promote s.current t.current) id))
        (promote s.current t.current v) g := fun hk hv => hk.promote ht h.groups_mem hv
  -- the view of `u` afterwards, in terms of a view before
  have hview : ∀ u n, u ∈ t.ids → storedBitmap
      (rows.map fun r => { r with subid := promote s.current t.current r.subid }) u n =
        storedBitmap rows (if u = t.current then s.current else u) n :=
    fun u n hu => storedBitmap_promote ht h.rows_inv.mem u n (Or.inl hu)
  have hold : ∀ u ∈ t.ids, (if u = t.current then s.current else u) ∈ s.ids := by
    intro u hu
    split
    · exact s.current_mem
    · exact ((Stack.mem_pop ht).mp hu).1
  have hle : ∀ u ∈ t.ids, ∀ v ∈ s.ids, promote s.current t.current v ≤ u ↔
      v ≤ if u = t.current then s.current else u := by
    intro u hu v hv
    have h1 := Stack.le_current hu
    have h2 := Stack.le_current hv
    by_cases hvc : v = s.current
    · rw [hvc, promote_self]
      split <;> omega
    · have h3 := Stack.le_current ((Stack.mem_pop ht).mpr ⟨hv, hvc⟩)
      rw [promote_of_ne hvc]
      split <;> omega
  refine ⟨?_, ?_, ⟨?_, ?_, ?_, ?_⟩, ?_, ?_, ?_, ?_, ?_, ?_⟩
  · simpa [Function.comp_def] using h.groups_nodup
  · intro x hx
    obtain ⟨y, hy, rfl⟩ := mem_map.mp hx
    exact hmem0 (h.groups_mem y hy)
  · intro r hr
    obtain ⟨r', hr', rfl⟩ := mem_map.mp hr
    exact hmem0 (h.rows_inv.mem r' hr')
  · intro r hr h0
    obtain ⟨r', hr', rfl⟩ := mem_map.mp hr
    have h0' : r'.subid ≠ 0 := by
      intro hz
      refine h0 ?_
      rw [hz]
      exact promote_of_ne (Nat.ne_of_lt (s.pos _ s.current_mem))
    obtain ⟨g, hk, hn⟩ := h.rows_inv.known r' hr' h0'
    exact ⟨g, hknown hk ((h.rows_inv.mem r' hr').resolve_right h0'), hn⟩
  · intro n
    rw [storedBitmap_promote ht h.rows_inv.mem 0 n (Or.inr rfl),
      if_neg (Nat.ne_of_lt (t.pos _ t.current_mem))]
    exact h.rows_inv.base_eq n
  · intro u hu v hv huv n i hrow
    rw [hview u n hu, hview v n hv]
    refine h.rows_inv.mono _ (hold u hu) _ (hold v hv) ?_ n i (IsRow.promote.mp hrow)
    have h2 := Stack.le_current hv
    split <;> split <;> omega
  · intro w hw
    obtain ⟨b, hb, rfl⟩ := mem_map.mp hw
    have hheld := h.held b hb
    rcases promoteBuffer_cases s.current t.current b with ⟨heq, hnot⟩ | ⟨heq, -, -⟩
    · rw [heq]
      dsimp only
      refine ⟨promote_mem ht hheld.owner_mem, ?_, ?_⟩
      · intro u hu
        obtain ⟨v, hv, rfl⟩ := map_eq_some_iff.mp hu
        exact promote_mem ht (hheld.under_mem v hv)
      · intro u hu
        obtain ⟨v, hv, rfl⟩ := map_eq_some_iff.mp hu
        have hv' := hheld.owner_lt v hv
        have hvc := Stack.le_current (hheld.under_mem v hv)
        have hbc : b.subid ≠ s.current := by omega
        have hbt := Stack.le_current ((Stack.mem_pop ht).mpr ⟨hheld.owner_mem, hbc⟩)
        rw [promote_of_ne hbc]
        by_cases hv2 : v = s.current
        · rw [hv2, promote_self]
          rw [promote_of_ne hbc] at hnot
          have hne : t.current ≠ b.subid := fun he => hnot ⟨hv2 ▸ hv, he⟩
          omega
        · rw [promote_of_ne hv2]
          exact hv'
    · rw [heq]
      exact Held.none (promote_mem ht hheld.owner_mem)
  · intro w hw
    obtain ⟨b, hb, rfl⟩ := mem_map.mp hw
    have hok := h.buf_ok b hb
    have hown := (h.held b hb).owner_mem
    rcases promoteBuffer_cases s.current t.current b with ⟨heq, -⟩ | ⟨heq, -, -⟩
    · rw [heq]
      exact ⟨fun c hm => ⟨hknown (hok.chunks c hm).known hown, (hok.chunks c hm).length,
        (hok.chunks c hm).lt⟩, fun g hm => hknown (hok.cache g hm) hown,
        fun g hm => hknown (hok.last g hm) hown⟩
    · rw [heq]
      exact ⟨by simp, by simp, by simp⟩
  · intro y hy
    obtain ⟨z, hz, rfl⟩ := mem_map.mp hy
    exact promote_mem ht (h.live_mem z hz)
  · intro y hy
    obtain ⟨z, hz, rfl⟩ := mem_map.mp hy
    obtain ⟨g, hk, hn⟩ := h.live_known z hz
    exact ⟨g, hknown hk (h.live_mem z hz), hn⟩
  · intro w hw u hu n i hm
    obtain ⟨b, hb, rfl⟩ := mem_map.mp hw
    rcases promoteBuffer_cases s.current t.current b with ⟨heq, -⟩ | ⟨heq, -, -⟩
    · rw [heq] at hu hm
      obtain ⟨v, hv, rfl⟩ := map_eq_some_iff.mp hu
      have hvm := (h.held b hb).under_mem v hv
      have hmt := promote_mem ht hvm
      rw [hview _ n hmt]
      refine h.rows_inv.mono v hvm _ (hold _ hmt) ?_ n i ((h.buf_ok b hb).isRow hm)
        (h.kept b hb v hv n i hm)
      exact (hle _ hmt v hvm).mp (le_refl _)
    · rw [heq] at hu
      cases hu
  · intro u hu n i hrow
    have hrow' := IsRow.promote.mp hrow
    have hbal := h.balance _ (hold u hu) n i hrow'
    rw [hview u n hu]
    have hlive : (∃ y ∈ live.map (Prod.map (promote s.current t.current) id),
        y.1 ≤ u ∧ y.2 = (n, i)) ↔
        ∃ y ∈ live, (y.1 ≤ if u = t.current then s.current else u) ∧ y.2 = (n, i) := by
      simp only [mem_map, exists_exists_and_eq_and, Prod.map_fst, Prod.map_snd, id]
      refine exists_congr fun y => and_congr_right fun hy => ?_
      rw [hle u hu y.1 (h.live_mem y hy)]
    rw [hlive, ← hbal]
    constructor
    · rintro (hbit | ⟨w, hw, hwu, hm⟩)
      · exact Or.inl hbit
      · obtain ⟨b, hb, rfl⟩ := mem_map.mp hw
        rw [promoteBuffer_subid, hle u hu _ (h.held b hb).owner_mem] at hwu
        rcases promoteBuffer_cases s.current t.current b with ⟨heq, -⟩ | ⟨heq, -, -⟩
        · rw [heq] at hm
          exact Or.inr ⟨b, hb, hwu, hm⟩
        · rw [heq] at hm
          obtain ⟨c, hc, -⟩ := hm
          cases hc
    · rintro (hbit | ⟨b, hb, hbu, hm⟩)
      · exact Or.inl hbit
      · rcases promoteBuffer_cases s.current t.current b with ⟨heq, -⟩ | ⟨heq, hunder, hp⟩
        · refine Or.inr ⟨_, mem_map_of_mem hb, ?_, ?_⟩
          · rw [promoteBuffer_subid, hle u hu _ (h.held b hb).owner_mem]
            exact hbu
          · rw [heq]
            exact hm
        · -- an emptied buffer: its marks are in the view that is now the owner's
          refine Or.inl (h.rows_inv.mono s.current s.current_mem _ (hold u hu) ?_ n i hrow'
            (h.kept b hb s.current hunder n i hm))
          have hpu : t.current ≤ u := by
            rw [hp]
            exact (hle u hu _ (h.held b hb).owner_mem).mpr hbu
          have := Stack.le_current hu
          rw [if_pos (by omega)]

theorem abort {bufs : List Buffer} {live : List (ℕ × (ℕ × ℕ))} {t : Stack}
    (h : Inv base s groups rows bufs live) (ht : s.pop = some t) :
    Inv base t (groups.filter (·.1 ≠ s.current)) (rows.filter (·.subid ≠ s.current))
      (bufs.filterMap (discardBuffer s.current)) (live.filter (·.1 ≠ s.current)) := by
  have hpop : ∀ {u}, u ∈ t.ids ↔ u ∈ s.ids ∧ u ≠ s.current := Stack.mem_pop ht
  have hlt : ∀ {u}, u ∈ s.ids → u ≠ s.current → u < s.current := by
    intro u hu hne
    have := Stack.le_current hu
    omega
  have hknown : ∀ {v g}, Known groups v g → v ∈ s.ids → v ≠ s.current →
      Known (groups.filter (·.1 ≠ s.current)) v g := fun hk hv hne => hk.abort (hlt hv hne)
  have hrow : ∀ {n i}, IsRow (groups.filter (·.1 ≠ s.current)) n i → IsRow groups n i := by
    rintro n i ⟨x, hx, hr⟩
    exact ⟨x, (mem_filter.mp hx).1, hr⟩
  have hview : ∀ u ∈ t.ids, ∀ n, storedBitmap (rows.filter (·.subid ≠ s.current)) u n =
      storedBitmap rows u n :=
    fun u hu n => storedBitmap_abort u n (hlt (hpop.mp hu).1 (hpop.mp hu).2)
  -- what is left of a buffer: its marks, and a tag that is not the aborted one's
  have hbuf : ∀ b', b' ∈ bufs.filterMap (discardBuffer s.current) → ∃ b ∈ bufs,
      b.subid ≠ s.current ∧ b'.subid = b.subid ∧ b'.chunks = b.chunks ∧
      b'.rowGroupCache = b.rowGroupCache ∧ b'.lastGroup = b.lastGroup ∧
      ∀ u ∈ b'.flushedUnder, u ∈ b.flushedUnder ∧ u ≠ s.current := by
    intro b' hb'
    obtain ⟨b, hb, hd⟩ := mem_filterMap.mp hb'
    unfold discardBuffer at hd
    obtain ⟨hne, hd⟩ := Option.ite_none_left_eq_some.mp hd
    split at hd
    · cases hd
      exact ⟨b, hb, hne, rfl, rfl, rfl, rfl, by simp⟩
    · next hu =>
      cases hd
      refine ⟨_, hb, hne, rfl, rfl, rfl, rfl, ?_⟩
      intro u hm
      refine ⟨hm, ?_⟩
      rintro rfl
      exact hu hm
  refine ⟨?_, ?_, ⟨?_, ?_, ?_, ?_⟩, ?_, ?_, ?_, ?_, ?_, ?_⟩
  · exact h.groups_nodup.sublist (filter_sublist.map _)
  · intro x hx
    obtain ⟨hx, hne⟩ := mem_filter.mp hx
    exact (h.groups_mem x hx).imp (fun hm => hpop.mpr ⟨hm, by simpa using hne⟩) id
  · intro r hr
    obtain ⟨hr, hne⟩ := mem_filter.mp hr
    exact (h.rows_inv.mem r hr).imp (fun hm => hpop.mpr ⟨hm, by simpa using hne⟩) id
  · intro r hr h0
    obtain ⟨hr, hne⟩ := mem_filter.mp hr
    obtain ⟨g, hk, hn⟩ := h.rows_inv.known r hr h0
    exact ⟨g, hknown hk ((h.rows_inv.mem r hr).resolve_right h0) (by simpa using hne), hn⟩
  · intro n
    rw [storedBitmap_abort 0 n (s.pos _ s.current_mem)]
    exact h.rows_inv.base_eq n
  · intro u hu v hv huv n i hr
    rw [hview u hu, hview v hv]
    exact h.rows_inv.mono u (hpop.mp hu).1 v (hpop.mp hv).1 huv n i (hrow hr)
  · intro b' hb'
    obtain ⟨b, hb, hne, hsub, -, -, -, hunder⟩ := hbuf b' hb'
    have hheld := h.held b hb
    rw [hsub]
    refine ⟨hpop.mpr ⟨hheld.owner_mem, hne⟩, ?_, ?_⟩
    · intro u hu
      exact hpop.mpr ⟨hheld.under_mem u (hunder u hu).1, (hunder u hu).2⟩
    · intro u hu
      exact hheld.owner_lt u (hunder u hu).1
  · intro b' hb'
    obtain ⟨b, hb, hne, hsub, hch, hca, hla, -⟩ := hbuf b' hb'
    have hok := h.buf_ok b hb
    have hown := (h.held b hb).owner_mem
    refine ⟨?_, ?_, ?_⟩
    · intro c hc
      rw [hch] at hc
      rw [hsub]
      exact ⟨hknown (hok.chunks c hc).known hown hne, (hok.chunks c hc).length,
        (hok.chunks c hc).lt⟩
    · intro g hg
      rw [hca] at hg
      rw [hsub]
      exact hknown (hok.cache g hg) hown hne
    · intro g hg
      rw [hla] at hg
      rw [hsub]
      exact hknown (hok.last g hg) hown hne
  · intro y hy
    obtain ⟨hy, hne⟩ := mem_filter.mp hy
    exact hpop.mpr ⟨h.live_mem y hy, by simpa using hne⟩
  · intro y hy
    obtain ⟨hy, hne⟩ := mem_filter.mp hy
    obtain ⟨g, hk, hn⟩ := h.live_known y hy
    exact ⟨g, hknown hk (h.live_mem y hy) (by simpa using hne), hn⟩
  · intro b' hb' u hu n i hm
    obtain ⟨b, hb, -, -, hch, -, -, hunder⟩ := hbuf b' hb'
    obtain ⟨hub, hune⟩ := hunder u hu
    have hm' : b.Marks n i := by
      unfold Buffer.Marks at hm ⊢
      rwa [hch] at hm
    rw [hview u (hpop.mpr ⟨(h.held b hb).under_mem u hub, hune⟩)]
    exact h.kept b hb u hub n i hm'
  · intro u hu n i hr
    have hult := hlt (hpop.mp hu).1 (hpop.mp hu).2
    have hbal := h.balance u (hpop.mp hu).1 n i (hrow hr)
    have hbufs : (∃ b' ∈ bufs.filterMap (discardBuffer s.current), b'.subid ≤ u ∧ b'.Marks n i) ↔
        ∃ b ∈ bufs, b.subid ≤ u ∧ b.Marks n i := by
      constructor
      · rintro ⟨b', hb', hle, hm⟩
        obtain ⟨b, hb, -, hsub, hch, -⟩ := hbuf b' hb'
        refine ⟨b, hb, hsub ▸ hle, ?_⟩
        unfold Buffer.Marks at hm ⊢
        rwa [hch] at hm
      · rintro ⟨b, hb, hle, hm⟩
        have hne : b.subid ≠ s.current := by omega
        by_cases hf : b.flushedUnder = some s.current
        · exact ⟨{ b with flushedUnder := none },
            mem_filterMap.mpr ⟨b, hb, by simp [discardBuffer, hne, hf]⟩, hle, hm⟩
        · exact ⟨b, mem_filterMap.mpr ⟨b, hb, by simp [discardBuffer, hne, hf]⟩, hle, hm⟩
    have hlive : (∃ y ∈ live.filter (·.1 ≠ s.current), y.1 ≤ u ∧ y.2 = (n, i)) ↔
        ∃ y ∈ live, y.1 ≤ u ∧ y.2 = (n, i) := by
      constructor
      · rintro ⟨y, hy, hle, heq⟩
        exact ⟨y, (mem_filter.mp hy).1, hle, heq⟩
      · rintro ⟨y, hy, hle, heq⟩
        have hne : y.1 ≠ s.current := by omega
        exact ⟨y, mem_filter.mpr ⟨hy, by simpa using hne⟩, hle, heq⟩
    rw [hview u hu, hbufs, hlive]
    exact hbal

end Inv

/-! ### Runs -/

/-- The bit stored for a row of a group before the transaction. -/
def Stored.bitmap (base : Stored) (groupNumber : ℕ) : List Byte :=
  storedBitmap (Session.start base).deleteVectors 0 groupNumber

namespace History

/-- The invariant of a transaction with its journal. -/
def Inv (base : Stored) (h : History) : Prop :=
  Delete.Inv base.bitmap h.session.stack h.session.rowGroups h.session.deleteVectors
    h.session.buffers h.journal.live

variable {base : Stored} {h h' : History}

theorem inv_start (base : Stored) : (start base).Inv base := by
  have hrows : ∀ r ∈ (Session.start base).deleteVectors, r.subid = 0 := by
    intro r hr
    obtain ⟨x, -, rfl⟩ := mem_map.mp hr
    rfl
  have hview : ∀ u n, storedBitmap (start base).session.deleteVectors u n = base.bitmap n := by
    intro u n
    refine storedBitmap_congr fun r hr _ => ?_
    simp [hrows r hr]
  refine ⟨?_, ?_, ⟨fun r hr => Or.inr (hrows r hr), fun r hr h0 => absurd (hrows r hr) h0,
    fun n => rfl, ?_⟩, ?_, ?_, ?_, ?_, ?_, ?_⟩
  · simpa [start, Session.start, Function.comp_def] using base.nodup
  · intro x hx
    obtain ⟨g, -, rfl⟩ := mem_map.mp hx
    exact Or.inr rfl
  · intro u _ v _ _ n i _ hbit
    rw [hview] at hbit ⊢
    exact hbit
  · simp [start, Session.start]
  · simp [start, Session.start]
  · simp [start, Journal.empty]
  · simp [start, Journal.empty]
  · simp [start, Session.start]
  · intro u _ n i _
    rw [hview]
    simp [start, Session.start, Journal.empty]

theorem Inv.forEach {f : Buffer → List DeleteVectorRow → Option (Buffer × List DeleteVectorRow)}
    (hi : h.Inv base) {s' : Session}
    (hf : ∀ {b b' rest rows rows'}, Delete.Inv base.bitmap h.session.stack h.session.rowGroups rows
        (b :: rest) h.journal.live → f b rows = some (b', rows') →
      Delete.Inv base.bitmap h.session.stack h.session.rowGroups rows' (b' :: rest) h.journal.live)
    (hr : h.session.forEach f = some s') : Inv base { h with session := s' } := by
  obtain ⟨⟨bufs', rows'⟩, hflush, rfl⟩ := map_eq_some_iff.mp hr
  exact Delete.Inv.flushEach hf hi hflush

/-- Every action keeps the invariant. -/
theorem Inv.step (hi : h.Inv base) (a : Action) (hs : h.step a = some h') : h'.Inv base := by
  cases a with
  | mark rowNumber =>
    obtain ⟨⟨bufs', m⟩, hm, rfl⟩ := map_eq_some_iff.mp hs
    exact Delete.Inv.markRowDeleted hi hm
  | insertRowGroup g =>
    obtain ⟨s', hins, rfl⟩ := map_eq_some_iff.mp hs
    unfold Session.insertRowGroup at hins
    obtain ⟨hnew, hins⟩ := Option.ite_none_left_eq_some.mp hins
    cases hins
    exact Delete.Inv.insertRowGroup hi hnew
  | scanFlush rowLock =>
    obtain ⟨s', hflush, rfl⟩ := map_eq_some_iff.mp hs
    exact hi.forEach (fun h1 hr => h1.flushForScan hr) hflush
  | statementEnd rowLock =>
    obtain ⟨s', hflush, rfl⟩ := map_eq_some_iff.mp hs
    refine hi.forEach (fun h1 hr => ?_) hflush
    unfold flushOfSubXact at hr
    split at hr
    · next hc => exact h1.flushBuffer hc hr
    · cases hr
      exact h1
  | startSubXact =>
    cases hs
    exact Delete.Inv.push hi
  | commitSubXact =>
    simp only [History.step, Session.commitSubXact, Option.map_map] at hs
    obtain ⟨t, ht, rfl⟩ := map_eq_some_iff.mp hs
    exact Delete.Inv.commit hi ht
  | abortSubXact =>
    simp only [History.step, Session.abortSubXact, Option.map_map] at hs
    obtain ⟨t, ht, rfl⟩ := map_eq_some_iff.mp hs
    exact Delete.Inv.abort hi ht

theorem Inv.run (hi : h.Inv base) {as : List Action} (hr : Run.run History.step h as = some h') :
    h'.Inv base :=
  Run.run_invariant (fun _ a _ hi hs => Inv.step hi a hs) hi hr

/-- What each flush leaves of its buffer. -/
theorem forall_flushEach
    {f : Buffer → List DeleteVectorRow → Option (Buffer × List DeleteVectorRow)}
    {rows' : List DeleteVectorRow}
    {P : Buffer → Prop} (hf : ∀ b rows b' rows', f b rows = some (b', rows') → P b')
    {bufs bufs' : List Buffer} {rows : List DeleteVectorRow}
    (hr : flushEach f bufs rows = some (bufs', rows')) : ∀ b ∈ bufs', P b := by
  induction bufs generalizing rows bufs' with
  | nil =>
    cases hr
    simp
  | cons b bufs ih =>
    rw [flushEach] at hr
    obtain ⟨⟨b1, rows1⟩, hb, hmap⟩ := bind_eq_some_iff.mp hr
    obtain ⟨⟨bufs1, rows2⟩, hrest, heq⟩ := map_eq_some_iff.mp hmap
    cases heq
    refine forall_mem_cons.mpr ⟨?_, ih hrest⟩
    exact hf _ _ _ _ hb

/-- A flush that does not keep the marks empties the buffer. -/
theorem chunks_flushBuffer {rows' : List DeleteVectorRow} {catalog : List RowGroupMeta}
    {rowLock : Bool} {current : ℕ}
    {b b' : Buffer} {rows : List DeleteVectorRow}
    (hb : flushBuffer catalog rowLock current false b rows = some (b', rows')) :
    b'.chunks = [] := by
  unfold flushBuffer at hb
  split at hb
  · next hempty =>
    cases hb
    exact isEmpty_iff.mp hempty
  · split at hb
    · cases hb
    · split at hb
      · cases hb
      · cases hb
        rfl

/-- **The delete bitmaps of a committed transaction.**  Whatever subtransactions it
had and however marks, scans, statement ends and subtransaction ends came, when only
the top level is left and the pre-commit flush has run, the bits stored for the rows
of a row group are those stored before and those marked in subtransactions that
committed. -/
theorem stored_bits_commit (base : Stored) (as : List Action) (h : History) (rowLock : Bool)
    (s' : Session) (hr : Run.run History.step (start base) as = some h)
    (htop : h.session.stack.outer = [])
    (hflush : h.session.flushAllDeleteVectors rowLock = some s') (g : RowGroupMeta)
    (hg : g ∈ s'.catalog) (i : ℕ) (hi : i < g.rowCount) :
    bitAt (storedBitmap s'.deleteVectors s'.stack.current g.groupNumber) i = true ↔
      bitAt (base.bitmap g.groupNumber) i = true ∨
        (g.groupNumber, i) ∈ h.journal.live.map (·.2) := by
  have hinv := (inv_start base).run hr
  have hids : h.session.stack.ids = [h.session.stack.current] := by simp [Stack.ids, htop]
  have hinv' : Inv base { h with session := s' } := by
    refine hinv.forEach (fun h1 hb => ?_) hflush
    have hown := (h1.held _ mem_cons_self).owner_mem
    rw [hids, mem_singleton] at hown
    exact h1.flushBuffer hown hb
  obtain ⟨⟨bufs', rows'⟩, heach, rfl⟩ := map_eq_some_iff.mp hflush
  have hempty := forall_flushEach (fun _ _ _ _ hb => chunks_flushBuffer hb) heach
  obtain ⟨x, hx, rfl⟩ := mem_map.mp hg
  have hbal := hinv'.balance _ (Stack.current_mem _) x.2.groupNumber i ⟨x, hx, rfl, hi⟩
  have hno : ¬ ∃ b ∈ bufs', b.subid ≤ h.session.stack.current ∧ b.Marks x.2.groupNumber i := by
    rintro ⟨b, hb, -, c, hc, -⟩
    rw [hempty b hb] at hc
    cases hc
  have hlive : (∃ y ∈ h.journal.live, y.1 ≤ h.session.stack.current ∧
      y.2 = (x.2.groupNumber, i)) ↔ (x.2.groupNumber, i) ∈ h.journal.live.map (·.2) := by
    rw [mem_map]
    refine exists_congr fun y => and_congr_right fun hy => ?_
    exact and_iff_right (Stack.le_current (hinv.live_mem y hy))
  rw [← hlive]
  refine Iff.trans ?_ hbal
  exact (or_iff_left hno).symm

/-- Marks before, in and after a savepoint that is rolled back, with scans inside it,
on a group of ten rows whose row 3 was deleted earlier. -/
def savepointRun : List Action :=
  [.mark 101, .startSubXact, .mark 102, .scanFlush true, .mark 104, .statementEnd true,
    .abortSubXact, .mark 105, .startSubXact, .scanFlush true, .mark 106, .commitSubXact]

/-- The group of `savepointRun`. -/
def savepointBase : Stored := ⟨[⟨7, 100, 10⟩], [(7, [0x08, 0x00])], by decide⟩

theorem stored_bits_commit_savepoint :
    ∃ h s', Run.run History.step (start savepointBase) savepointRun = some h ∧
      h.session.flushAllDeleteVectors true = some s' ∧ h.journal.dead = [(7, 2), (7, 4)] ∧
      bitAt (storedBitmap s'.deleteVectors s'.stack.current 7) 6 = true ∧
      ¬ bitAt (storedBitmap s'.deleteVectors s'.stack.current 7) 4 = true := by
  have hcase : ((Run.run History.step (start savepointBase) savepointRun).bind fun h =>
      (h.session.flushAllDeleteVectors true).map fun s' =>
        (h.session.stack.outer, h.journal.dead, h.journal.live.map (·.2), s'.catalog)) =
      some ([], [(7, 2), (7, 4)], [(7, 1), (7, 5), (7, 6)], [⟨7, 100, 10⟩]) := by decide +kernel
  obtain ⟨h, hr, hmap⟩ := bind_eq_some_iff.mp hcase
  obtain ⟨s', hflush, heq⟩ := map_eq_some_iff.mp hmap
  simp only [Prod.mk.injEq] at heq
  obtain ⟨htop, hdead, hlive, hcat⟩ := heq
  have hbits := stored_bits_commit savepointBase savepointRun h true s' hr htop hflush ⟨7, 100, 10⟩
    (by rw [hcat]; simp)
  refine ⟨h, s', hr, hflush, hdead, (hbits 6 (by decide)).mpr ?_, fun h4 => ?_⟩
  · rw [hlive]
    decide
  · have := (hbits 4 (by decide)).mp h4
    rw [hlive] at this
    revert this
    decide

end History

end PgColumnar.Delete
