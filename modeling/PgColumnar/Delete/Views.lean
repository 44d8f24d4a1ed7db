import PgColumnar.Delete.Buffer

/-!
# Views of the stored delete bitmaps

The versions of a `delete_vector` row carry the subtransactions that wrote them.  The
view of subtransaction `u` has only the versions of `u` and of those above it: what
would be stored if everything below `u` were rolled back.
-/

namespace PgColumnar.Delete

open Nested Bytes List

variable {s : Stack} {groups : List (ℕ × RowGroupMeta)} {rows : List DeleteVectorRow}
  {base : ℕ → List Byte}

/-! ### Row groups and the subtransactions that see them -/

/-- The group is visible to subtransaction `v` and those below it. -/
def Known (groups : List (ℕ × RowGroupMeta)) (v : ℕ) (g : RowGroupMeta) : Prop :=
  ∃ t ≤ v, (t, g) ∈ groups

/-- Bit `i` of group `n` stands for a row. -/
def IsRow (groups : List (ℕ × RowGroupMeta)) (n i : ℕ) : Prop :=
  ∃ x ∈ groups, x.2.groupNumber = n ∧ i < x.2.rowCount

variable {v : ℕ} {g : RowGroupMeta}

theorem Known.mono {w : ℕ} (h : Known groups v g) (hvw : v ≤ w) : Known groups w g := by
  obtain ⟨t, ht, hm⟩ := h
  exact ⟨t, Nat.le_trans ht hvw, hm⟩

theorem Known.append (h : Known groups v g)
    (gs : List (ℕ × RowGroupMeta)) : Known (groups ++ gs) v g := by
  obtain ⟨t, ht, hm⟩ := h
  exact ⟨t, ht, mem_append_left _ hm⟩

theorem Known.promote {t : Stack} (ht : s.pop = some t)
    (hg : ∀ x ∈ groups, x.1 ∈ s.ids ∨ x.1 = 0) (h : Known groups v g)
    (hv : v ∈ s.ids) :
    Known (groups.map (Prod.map (promote s.current t.current) id))
      (Nested.promote s.current t.current v) g := by
  obtain ⟨u, hu, hm⟩ := h
  refine ⟨Nested.promote s.current t.current u, promote_le_promote ht (hg _ hm) hu hv, ?_⟩
  exact mem_map.mpr ⟨(u, g), hm, rfl⟩

theorem Known.abort (h : Known groups v g) (hv : v < s.current) :
    Known (groups.filter (·.1 ≠ s.current)) v g := by
  obtain ⟨t, ht, hm⟩ := h
  refine ⟨t, ht, mem_filter.mpr ⟨hm, ?_⟩⟩
  have : t ≠ s.current := by omega
  simpa using this

/-- A group number names one row group. -/
theorem eq_of_groupNumber_eq (hn : (groups.map (·.2.groupNumber)).Nodup)
    {x y : ℕ × RowGroupMeta} (hx : x ∈ groups) (hy : y ∈ groups)
    (h : x.2.groupNumber = y.2.groupNumber) : x = y :=
  inj_on_of_nodup_map hn hx hy h

theorem Known.lt_rowCount (hn : (groups.map (·.2.groupNumber)).Nodup) {i : ℕ} (h : Known groups v g)
    (hi : IsRow groups g.groupNumber i) :
    i < g.rowCount := by
  obtain ⟨t, -, hm⟩ := h
  obtain ⟨x, hx, hxn, hlt⟩ := hi
  rw [eq_of_groupNumber_eq hn hx hm hxn] at hlt
  exact hlt

/-! ### The stored bitmaps -/

theorem storedBitmap_cons (r : DeleteVectorRow) (rows : List DeleteVectorRow) (u n : ℕ) :
    storedBitmap (r :: rows) u n =
      if r.groupNumber = n ∧ r.subid ≤ u then r.bitmap else storedBitmap rows u n := by
  unfold storedBitmap
  rw [find?_cons]
  by_cases h : r.groupNumber = n ∧ r.subid ≤ u <;> simp [h]

/-- Views that have the same versions of a group are equal there. -/
theorem storedBitmap_congr {u n : ℕ}
    (h : ∀ r ∈ rows, r.groupNumber = n → (r.subid ≤ u ↔ r.subid ≤ v)) :
    storedBitmap rows u n = storedBitmap rows v n := by
  induction rows with
  | nil => rfl
  | cons r rows ih =>
    rw [storedBitmap_cons, storedBitmap_cons, ih fun r hr => h r (mem_cons_of_mem _ hr)]
    by_cases hn : r.groupNumber = n
    · simp [hn, h r mem_cons_self hn]
    · simp [hn]

theorem storedBitmap_promote {t : Stack} (ht : s.pop = some t)
    (hm : ∀ r ∈ rows, r.subid ∈ s.ids ∨ r.subid = 0) (u n : ℕ) (hu : u ∈ t.ids ∨ u = 0) :
    storedBitmap (rows.map fun r => { r with subid := promote s.current t.current r.subid }) u n =
      storedBitmap rows (if u = t.current then s.current else u) n := by
  induction rows with
  | nil => rfl
  | cons r rows ih =>
    have hr := hm r mem_cons_self
    have ih := ih fun r hr => hm r (mem_cons_of_mem _ hr)
    obtain ⟨-, hlt, -⟩ := Stack.pop_eq_some ht
    rw [map_cons, storedBitmap_cons, storedBitmap_cons, ih]
    have hiff : promote s.current t.current r.subid ≤ u ↔
        r.subid ≤ if u = t.current then s.current else u := by
      have hu' : u ≤ t.current := by
        rcases hu with hu | rfl
        · exact Stack.le_current hu
        · exact Nat.zero_le _
      by_cases hc : r.subid = s.current
      · rw [hc, promote_self]
        split <;> omega
      · rw [promote_of_ne hc]
        have hle : r.subid ≤ t.current := by
          rcases hr with hr | hr
          · exact Stack.le_current ((Stack.mem_pop ht).mpr ⟨hr, hc⟩)
          · omega
        split <;> omega
    simp only [hiff]

theorem storedBitmap_abort (u n : ℕ) (hu : u < s.current) :
    storedBitmap (rows.filter (·.subid ≠ s.current)) u n = storedBitmap rows u n := by
  induction rows with
  | nil => rfl
  | cons r rows ih =>
    rw [filter_cons, storedBitmap_cons, ← ih]
    by_cases hc : r.subid = s.current
    · have hno : ¬ (r.groupNumber = n ∧ r.subid ≤ u) := by omega
      rw [if_neg hno]
      simp [hc]
    · simp [hc, storedBitmap_cons]

/-- What every step keeps of the stored rows. -/
structure RowsInv (base : ℕ → List Byte) (s : Stack) (groups : List (ℕ × RowGroupMeta))
    (rows : List DeleteVectorRow) : Prop where
  mem : ∀ r ∈ rows, r.subid ∈ s.ids ∨ r.subid = 0
  known : ∀ r ∈ rows, r.subid ≠ 0 → ∃ g, Known groups r.subid g ∧ g.groupNumber = r.groupNumber
  base_eq : ∀ n, storedBitmap rows 0 n = base n
  mono : ∀ u ∈ s.ids, ∀ v ∈ s.ids, u ≤ v → ∀ n i, IsRow groups n i →
    bitAt (storedBitmap rows u n) i = true → bitAt (storedBitmap rows v n) i = true

/-- A chunk of a subtransaction's buffer: a mask of the right size for a visible
group, with bits for rows only. -/
structure ChunkOk (groups : List (ℕ × RowGroupMeta)) (v : ℕ) (c : Chunk) : Prop where
  known : Known groups v c.group
  length : c.mask.length = c.group.maskLen
  lt : ∀ i, bitAt c.mask i = true → i < c.group.rowCount

theorem RowGroupMeta.lt_maskLen {i : ℕ} (h : i < g.rowCount) : i < 8 * g.maskLen := by
  unfold RowGroupMeta.maskLen
  omega

theorem upsertDeleteVector_eq (h : ∀ r ∈ rows, r.subid ∈ s.ids ∨ r.subid = 0) (n : ℕ)
    (bitmap : List Byte) :
    upsertDeleteVector s.current rows n bitmap =
      (⟨n, popcount (orBytes bitmap (storedBitmap rows s.current n)),
        orBytes bitmap (storedBitmap rows s.current n), s.current⟩ :: rows,
        orBytes bitmap (storedBitmap rows s.current n)) := by
  have hfind : (rows.find? fun r => r.groupNumber = n) =
      rows.find? fun r => r.groupNumber = n ∧ r.subid ≤ s.current := by
    induction rows with
    | nil => rfl
    | cons r rows ih =>
      have hle : r.subid ≤ s.current := by
        rcases h r mem_cons_self with hm | hm
        · exact Stack.le_current hm
        · omega
      rw [find?_cons, find?_cons, ih fun r hr => h r (mem_cons_of_mem _ hr)]
      simp [hle]
  unfold upsertDeleteVector storedBitmap
  rw [hfind]
  cases rows.find? fun r => r.groupNumber = n ∧ r.subid ≤ s.current with
  | none =>
    have hnil : orBytes bitmap [] = bitmap := by cases bitmap <;> rfl
    simp [hnil]
  | some r => rfl

namespace RowsInv

/-- One upsert adds the mask to the current view. -/
theorem upsert (h : RowsInv base s groups rows) (hn : (groups.map (·.2.groupNumber)).Nodup)
    {c : Chunk} (hc : ChunkOk groups s.current c) :
    let rows' := (upsertDeleteVector s.current rows c.group.groupNumber c.mask).1
    RowsInv base s groups rows' ∧
      (∀ u < s.current, ∀ n, storedBitmap rows' u n = storedBitmap rows u n) ∧
      ∀ n i, IsRow groups n i → (bitAt (storedBitmap rows' s.current n) i = true ↔
        bitAt (storedBitmap rows s.current n) i = true ∨
          (c.group.groupNumber = n ∧ bitAt c.mask i = true)) := by
  rw [upsertDeleteVector_eq h.mem]
  have hbelow : ∀ u < s.current, ∀ n, storedBitmap (⟨c.group.groupNumber, popcount (orBytes c.mask
        (storedBitmap rows s.current c.group.groupNumber)), orBytes c.mask
        (storedBitmap rows s.current c.group.groupNumber), s.current⟩ :: rows) u n =
      storedBitmap rows u n := by
    intro u hu n
    rw [storedBitmap_cons, if_neg (by dsimp only; omega)]
  have hcur : ∀ n i, IsRow groups n i →
      (bitAt (storedBitmap (⟨c.group.groupNumber, popcount (orBytes c.mask
        (storedBitmap rows s.current c.group.groupNumber)), orBytes c.mask
        (storedBitmap rows s.current c.group.groupNumber), s.current⟩ :: rows) s.current n)
          i = true ↔
        bitAt (storedBitmap rows s.current n) i = true ∨
          (c.group.groupNumber = n ∧ bitAt c.mask i = true)) := by
    intro n i hrow
    rw [storedBitmap_cons]
    by_cases hg : c.group.groupNumber = n
    · subst hg
      have hlt := RowGroupMeta.lt_maskLen (hc.known.lt_rowCount hn hrow)
      rw [if_pos ⟨rfl, Nat.le_refl _⟩, bitAt_orBytes (by rw [hc.length]; exact hlt),
        Bool.or_eq_true, or_comm]
      simp
    · rw [if_neg (fun h => hg h.1)]
      simp [hg]
  refine ⟨⟨?_, ?_, ?_, ?_⟩, hbelow, hcur⟩
  · refine forall_mem_cons.mpr ⟨?_, h.mem⟩
    exact Or.inl s.current_mem
  · refine forall_mem_cons.mpr ⟨?_, h.known⟩
    intro h0
    exact ⟨c.group, hc.known, rfl⟩
  · intro n
    rw [hbelow 0 (s.pos _ s.current_mem) n]
    exact h.base_eq n
  · intro u hu v hv huv n i hrow hbit
    -- the new version is in no view but the current one, and there it only adds bits
    have hle := Stack.le_current hv
    rcases Nat.lt_or_ge u s.current with hlt | hge
    · rw [hbelow u hlt] at hbit
      rcases Nat.lt_or_ge v s.current with hlt' | hge'
      · rw [hbelow v hlt']
        exact h.mono u hu v hv huv n i hrow hbit
      · have hvc : v = s.current := by omega
        rw [hvc] at hv huv ⊢
        exact (hcur n i hrow).mpr (Or.inl (h.mono u hu _ hv huv n i hrow hbit))
    · have huv' : u = v := by
        have := Stack.le_current hu
        omega
      rwa [← huv']

/-- A flush adds its masks to the current view and changes no view above it. -/
theorem flushChunks (keep : Bool) {chunks : List Chunk} (h : RowsInv base s groups rows)
    (hn : (groups.map (·.2.groupNumber)).Nodup) (hc : ∀ c ∈ chunks, ChunkOk groups s.current c) :
    let rows' := (flushChunks s.current keep rows chunks).1
    RowsInv base s groups rows' ∧
      (∀ u < s.current, ∀ n, storedBitmap rows' u n = storedBitmap rows u n) ∧
      ∀ n i, IsRow groups n i → (bitAt (storedBitmap rows' s.current n) i = true ↔
        bitAt (storedBitmap rows s.current n) i = true ∨
          ∃ c ∈ chunks, c.group.groupNumber = n ∧ bitAt c.mask i = true) := by
  induction chunks generalizing rows with
  | nil => exact ⟨h, fun _ _ _ => rfl, fun n i _ => by simp [Delete.flushChunks]⟩
  | cons c chunks ih =>
    obtain ⟨h1, hbelow1, hcur1⟩ := h.upsert hn (hc c mem_cons_self)
    obtain ⟨h2, hbelow2, hcur2⟩ := ih h1 fun c hm => hc c (mem_cons_of_mem _ hm)
    refine ⟨h2, ?_, ?_⟩
    · intro u hu n
      exact (hbelow2 u hu n).trans (hbelow1 u hu n)
    · intro n i hrow
      refine (hcur2 n i hrow).trans ?_
      rw [hcur1 n i hrow]
      simp only [mem_cons, exists_eq_or_imp]
      tauto

end RowsInv

theorem flushChunks_keep (current : ℕ) (rows : List DeleteVectorRow) (chunks : List Chunk) :
    (flushChunks current true rows chunks).2 = chunks := by
  induction chunks generalizing rows with
  | nil => rfl
  | cons c chunks ih =>
    rw [flushChunks]
    simp [ih]

end PgColumnar.Delete
