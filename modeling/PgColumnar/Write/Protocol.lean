import PgColumnar.Write.Numbers

/-!
# No row lost, none written twice

The rows a transaction appended are in its journal, each with the subtransaction
that holds it.  The catalog and the buffers account for the same rows: what the
catalog holds plus what is buffered is the journal plus the kept buffers, whose
rows are in both places, once under the owner and once under the subtransaction
that wrote them out.  Every action keeps this balance, counted however one likes
(`Balanced`), and at the end no buffer is kept.

Row numbers come from reservations that never overlap, so no number is given out
twice (`PgColumnar.Write.Numbers`).

## Main definitions

* `Flushed` — a write state after a flush, and what it wrote.
* `Inv` — each row that was not rolled back is in one buffer, or in the catalog.

## Main results

* `Inv.step` — every action keeps it.
* `committed_rows` — at the commit the catalog has these rows, each once.
-/

namespace PgColumnar.Write

open Nested List Function

variable {ρ : Type*} {s : Stack}

/-! ### Rows with the subtransaction that holds them -/

def tag {α : Type*} (u : ℕ) (l : List α) : List (ℕ × α) := l.map (u, ·)

/-- The buffered rows with their row numbers. -/
def WriteState.numbered (ws : WriteState ρ) : List (ρ × ℕ) :=
  match ws.stripe with
  | none => []
  | some st => st.rows.zipIdx st.firstRowNumber

theorem numbered_bufferRow (ws : WriteState ρ) (st : Stripe ρ) (row : ρ) :
    (bufferRow ws st row).numbered =
      st.rows.zipIdx st.firstRowNumber ++ [(row, st.firstRowNumber + st.rows.length)] := by
  simp [WriteState.numbered, bufferRow, zipIdx_append]

/-- The buffered rows, held by the owner. -/
def WriteState.buffered (ws : WriteState ρ) : List (ℕ × (ρ × ℕ)) := tag ws.subid ws.numbered

/-- The buffered rows that are also in the catalog, under another subtransaction. -/
def WriteState.kept (ws : WriteState ρ) : List (ℕ × (ρ × ℕ)) :=
  match ws.flushedUnder with
  | none => []
  | some u => tag u ws.numbered

/-- The rows in the catalog, held by the subtransaction that wrote them. -/
def catalogRows (gs : List (RowGroup ρ)) : List (ℕ × (ρ × ℕ)) :=
  gs.flatMap fun g => tag g.subid (g.rows.zipIdx g.firstRowNumber)

theorem catalogRows_append (gs gs' : List (RowGroup ρ)) :
    catalogRows (gs ++ gs') = catalogRows gs ++ catalogRows gs' := flatMap_append

@[simp] theorem catalogRows_nil : catalogRows ([] : List (RowGroup ρ)) = [] := rfl

theorem map_snd_catalogRows (gs : List (RowGroup ρ)) :
    (catalogRows gs).map (·.2) = numberedRows gs := by
  simp [catalogRows, numberedRows, tag, map_flatMap, comp_def]

theorem catalogRows_promote (c p : ℕ) (gs : List (RowGroup ρ)) :
    catalogRows (gs.map fun g => { g with subid := promote c p g.subid }) =
      (catalogRows gs).map (Prod.map (promote c p) id) := by
  simp [catalogRows, tag, map_flatMap, flatMap_map, comp_def]

theorem filter_tag {α : Type*} (c u : ℕ) (l : List α) :
    (tag u l).filter (·.1 ≠ c) = if u = c then [] else tag u l := by
  by_cases h : u = c <;> simp [tag, h, filter_map, comp_def]

theorem catalogRows_filter (c : ℕ) (gs : List (RowGroup ρ)) :
    catalogRows (gs.filter (·.subid ≠ c)) = (catalogRows gs).filter (·.1 ≠ c) := by
  induction gs with
  | nil => rfl
  | cons g gs ih =>
    unfold catalogRows at ih ⊢
    rw [filter_cons, flatMap_cons, filter_append, filter_tag, ← ih]
    by_cases h : g.subid = c <;> simp [h]

/-! ### What a flush does to one write state -/

/-- A write state after a flush, with the row groups it wrote: nothing but whole
stripes left it, and the balance is kept. -/
structure Flushed (s : Stack) (ws : WriteState ρ) (r : WriteState ρ × List (RowGroup ρ)) :
    Prop where
  held : Held s r.1.subid r.1.flushedUnder
  stripe : r.1.stripe = ws.stripe ∨ r.1.stripe = none
  limit : r.1.stripeRowLimit = ws.stripeRowLimit
  rows : ∀ p, (catalogRows r.2).countP p + r.1.buffered.countP p + ws.kept.countP p =
    ws.buffered.countP p + r.1.kept.countP p

variable {ws : WriteState ρ}

theorem Flushed.refl (h : Held s ws.subid ws.flushedUnder) : Flushed s ws (ws, []) :=
  ⟨h, Or.inl rfl, rfl, fun p => by simp⟩

theorem kept_of_none (h : ws.flushedUnder = none) : ws.kept = [] := by
  simp [WriteState.kept, h]

theorem catalogRows_flushRowGroup (current : ℕ) (keep : Bool) (ws : WriteState ρ) :
    catalogRows (flushRowGroup current keep ws).2 = tag current ws.numbered := by
  unfold flushRowGroup WriteState.numbered
  cases ws.stripe with
  | none => rfl
  | some st =>
    by_cases h : st.rows.length = 0
    · have hnil : st.rows = [] := length_eq_zero_iff.mp h
      simp [hnil, tag]
    · simp [h, catalogRows]

/-- A flush that does not keep the buffer empties it. -/
theorem numbered_flushRowGroup (current : ℕ) (ws : WriteState ρ) :
    (flushRowGroup current false ws).1.numbered = [] := by
  unfold flushRowGroup WriteState.numbered
  cases h : ws.stripe with
  | none => simp [h]
  | some st =>
    by_cases hl : st.rows.length = 0
    · have hnil : st.rows = [] := length_eq_zero_iff.mp hl
      simp [h, hnil]
    · simp [hl, WriteState.resetStripe]

/-- What `flush_row_group` does not touch. -/
theorem flushRowGroup_frame (current : ℕ) (keep : Bool) (ws : WriteState ρ) :
    (flushRowGroup current keep ws).1.subid = ws.subid ∧
    (flushRowGroup current keep ws).1.flushedUnder = ws.flushedUnder ∧
    (flushRowGroup current keep ws).1.stripeRowLimit = ws.stripeRowLimit ∧
    ((flushRowGroup current keep ws).1.stripe = ws.stripe ∨
      (flushRowGroup current keep ws).1.stripe = none) := by
  unfold flushRowGroup
  cases h : ws.stripe with
  | none => simp [h]
  | some st =>
    by_cases hl : st.rows.length = 0
    · simp [hl, h]
    · cases keep <;> simp [hl, WriteState.resetStripe, h]

/-- Writing a buffer under its owner. -/
theorem flushed_flushRowGroup (h : Held s ws.subid ws.flushedUnder)
    (hc : ws.subid = s.current) : Flushed s ws (flushRowGroup s.current false ws) := by
  obtain ⟨h1, h2, h3, h4⟩ := flushRowGroup_frame s.current false ws
  have hu := h.under_eq_none hc
  refine ⟨by rw [h1, h2]; exact h, h4, h3, ?_⟩
  intro p
  rw [kept_of_none hu, kept_of_none (h2.trans hu), catalogRows_flushRowGroup]
  simp only [WriteState.buffered, numbered_flushRowGroup, tag, hc, map_nil,
    countP_nil, Nat.add_zero]

theorem flushed_withProjections (h : Held s ws.subid ws.flushedUnder)
    (hc : ws.subid = s.current) : Flushed s ws (flushWithProjections s.current false ws) :=
  have hf := flushed_flushRowGroup h hc
  ⟨hf.held, hf.stripe, hf.limit, hf.rows⟩

/-- Writing an enclosing subtransaction's buffer and keeping it. -/
theorem flushed_keep (h : Held s ws.subid ws.flushedUnder)
    (hc : ws.subid ≠ s.current) (hu : ws.flushedUnder = none) :
    Flushed s ws ({ (flushWithProjections s.current true ws).1 with
      flushedUnder := some s.current, eagerFlush := true },
      (flushWithProjections s.current true ws).2) := by
  have hstate : (flushWithProjections s.current true ws).1 = ws := by
    unfold flushWithProjections flushRowGroup WriteState.flushProjections
    cases ws.stripe with
    | none => rfl
    | some st => by_cases hl : st.rows.length = 0 <;> simp [hl]
  rw [hstate]
  refine ⟨Held.current h.owner_mem hc, Or.inl rfl, rfl, ?_⟩
  intro p
  have hrows : catalogRows (flushWithProjections s.current true ws).2 = tag s.current ws.numbered :=
    catalogRows_flushRowGroup s.current true ws
  rw [kept_of_none hu, hrows, countP_nil, Nat.add_zero, Nat.add_comm]
  rfl

theorem flushed_flushWriteState (h : Held s ws.subid ws.flushedUnder) :
    Flushed s ws (flushWriteState s.current ws) := by
  unfold flushWriteState
  by_cases hu : ws.flushedUnder.isSome
  · simp only [hu, if_true]
    exact Flushed.refl h
  · have hn : ws.flushedUnder = none := Option.not_isSome_iff_eq_none.mp hu
    simp only [hu, Bool.false_eq_true, if_false]
    by_cases hc : ws.subid = s.current
    · simpa [hc] using flushed_withProjections h hc
    · simp only [ne_eq, hc, not_false_eq_true, decide_true, Bool.true_and, if_true]
      split
      · exact Flushed.refl h
      · exact flushed_keep h hc hn

theorem flushed_flushPendingWrites (h : Held s ws.subid ws.flushedUnder) :
    Flushed s ws (flushPendingWrites s.current ws) := by
  unfold flushPendingWrites
  by_cases hc : ws.subid = s.current
  · have hf := flushed_withProjections h hc
    simp only [hc, ne_eq, not_true_eq_false, if_false]
    exact ⟨hf.held, hf.stripe, hf.limit, hf.rows⟩
  · simp only [ne_eq, hc, not_false_eq_true, if_true]
    exact Flushed.refl h

theorem flushed_afterAppend (h : Held s ws.subid ws.flushedUnder) :
    Flushed s ws (afterAppend s.current ws) := by
  unfold afterAppend
  split
  · exact Flushed.refl h
  · next hcond =>
    simp only [Bool.or_eq_true, not_or, decide_eq_true_eq, not_not] at hcond
    have hf := flushed_withProjections h hcond.1.2
    exact ⟨hf.held, hf.stripe, hf.limit, hf.rows⟩

theorem flushed_flushAtLimit (h : Held s ws.subid ws.flushedUnder)
    (hc : ws.subid = s.current) : Flushed s ws (flushAtLimit s.current ws) := by
  unfold flushAtLimit
  split
  · exact flushed_flushRowGroup h hc
  · exact Flushed.refl h

theorem flushed_fanoutRow (h : Held s ws.subid ws.flushedUnder)
    (projections : ℕ) : Flushed s ws (fanoutRow projections ws, []) :=
  have hf := Flushed.refl h
  ⟨hf.held, hf.stripe, hf.limit, hf.rows⟩

theorem Flushed.shrunk {r : WriteState ρ × List (RowGroup ρ)}
    (h : Flushed s ws r) : Shrunk r.1 ws := ⟨h.stripe, h.limit⟩

/-! ### The invariant -/

/-- The catalog and the buffers hold the journal, and the kept buffers twice. -/
def Balanced (groups : List (RowGroup ρ)) (states : List (WriteState ρ))
    (live : List (ℕ × (ρ × ℕ))) : Prop :=
  ∀ p, (catalogRows groups).countP p + (states.flatMap WriteState.buffered).countP p =
    live.countP p + (states.flatMap WriteState.kept).countP p

/-- The numbers `PgColumnarWriteRow` has returned. -/
def usedNumbers (j : Journal (ρ × ℕ)) : List ℕ := j.all.map (·.2)

/-- What every step keeps, for a transaction that began with row number `first` on
the metapage. -/
structure Inv (first next : ℕ) (s : Stack) (states : List (WriteState ρ))
    (groups : List (RowGroup ρ)) (j : Journal (ρ × ℕ)) : Prop where
  held : ∀ ws ∈ states, Held s ws.subid ws.flushedUnder
  balanced : Balanced groups states j.live
  numbers : Numbering first next (usedNumbers j) states

/-- What holds between two actions: `Inv`, and every stripe has room. -/
structure History.Inv (first : ℕ) (h : History ρ) : Prop where
  core : Write.Inv first h.session.metapage.reservedRowNumber h.session.stack h.session.states
    h.session.rowGroups h.journal
  room : ∀ ws ∈ h.session.states, ws.Room

namespace Inv

variable {first next : ℕ} {states rest : List (WriteState ρ)} {groups : List (RowGroup ρ)}
  {j : Journal (ρ × ℕ)} {ws : WriteState ρ}

theorem perm (h : Inv first next s states groups j) {states' : List (WriteState ρ)}
    (hp : states.Perm states') : Inv first next s states' groups j where
  held := fun ws hws => h.held ws (hp.mem_iff.mpr hws)
  balanced := by
    intro p
    rw [← (hp.flatMap_right WriteState.buffered).countP_eq,
      ← (hp.flatMap_right WriteState.kept).countP_eq]
    exact h.balanced p
  numbers := h.numbers.perm hp

/-- One write state is flushed. -/
theorem flush {r : WriteState ρ × List (RowGroup ρ)} (h : Inv first next s (ws :: rest) groups j)
    (hf : Flushed s ws r) : Inv first next s (r.1 :: rest) (groups ++ r.2) j where
  held := by
    refine forall_mem_cons.mpr ⟨?_, fun w hw => h.held w (mem_cons_of_mem _ hw)⟩
    exact hf.held
  balanced := by
    intro p
    have h1 := h.balanced p
    have h2 := hf.rows p
    simp only [flatMap_cons, countP_append, catalogRows_append] at h1 ⊢
    omega
  numbers := h.numbers.shrink hf.shrunk

/-- Every write state is flushed. -/
theorem forEach {f : WriteState ρ → WriteState ρ × List (RowGroup ρ)}
    (h : Inv first next s states groups j) (hf : ∀ ws ∈ states, Flushed s ws (f ws)) :
    Inv first next s (states.map fun ws => (f ws).1)
      (groups ++ states.flatMap fun ws => (f ws).2) j where
  held := by
    intro w hw
    obtain ⟨ws, hws, rfl⟩ := mem_map.mp hw
    exact (hf ws hws).held
  balanced := by
    intro p
    have hsum : ∀ l : List (WriteState ρ), (∀ ws ∈ l, Flushed s ws (f ws)) →
        (catalogRows (l.flatMap fun ws => (f ws).2)).countP p +
          ((l.map fun ws => (f ws).1).flatMap WriteState.buffered).countP p +
          (l.flatMap WriteState.kept).countP p =
        (l.flatMap WriteState.buffered).countP p +
          ((l.map fun ws => (f ws).1).flatMap WriteState.kept).countP p := by
      intro l hl
      induction l with
      | nil => rfl
      | cons ws l ih =>
        have h1 := ih fun w hw => hl w (mem_cons_of_mem _ hw)
        have h2 := (hl ws mem_cons_self).rows p
        simp only [flatMap_cons, map_cons, countP_append, catalogRows_append] at h1 ⊢
        omega
    have h1 := h.balanced p
    have h2 := hsum states hf
    rw [catalogRows_append, countP_append]
    omega
  numbers := h.numbers.map fun ws hws => (hf ws hws).shrunk

/-- A write state with nothing in it may be dropped. -/
theorem drop (h : Inv first next s (ws :: rest) groups j) (he : ws.numbered = []) :
    Inv first next s rest groups j where
  held := fun w hw => h.held w (mem_cons_of_mem _ hw)
  balanced := by
    intro p
    have hkept : ws.kept = [] := by
      unfold WriteState.kept
      cases ws.flushedUnder <;> simp [tag, he]
    have h1 := h.balanced p
    simpa [WriteState.buffered, tag, he, hkept] using h1
  numbers := h.numbers.tail

/-- A fresh write state of the current subtransaction may be added. -/
theorem openNew (h : Inv first next s rest groups j) (natts : ℕ) (limit : RowLimit) :
    Inv first next s (newWriteState s.current natts limit :: rest) groups j where
  held := by
    refine forall_mem_cons.mpr ⟨?_, h.held⟩
    exact Held.none s.current_mem
  balanced := h.balanced
  numbers := h.numbers.cons_empty rfl

/-- A row is buffered in a write state of the current subtransaction. -/
theorem bufferRow {m : Metapage} (h : Inv first m.reservedRowNumber s (ws :: rest) groups j)
    (hc : ws.subid = s.current) (hroom : ws.Room) (row : ρ) :
    Inv first (reserveStripe ws m).2.reservedRowNumber s
      (bufferRow ws (reserveStripe ws m).1 row :: rest) groups
      (j.record s.current
        (row, (reserveStripe ws m).1.firstRowNumber + (reserveStripe ws m).1.rows.length)) := by
  have hheld := h.held ws mem_cons_self
  have hnone := hheld.under_eq_none hc
  -- with or without a reservation of its own, the stripe is numbered alike
  have hst : Numbering first (reserveStripe ws m).2.reservedRowNumber (usedNumbers j)
      ({ ws with stripe := some (reserveStripe ws m).1 } :: rest) ∧
      (reserveStripe ws m).1.rows.length < ws.stripeRowLimit.rows ∧
      ws.numbered = (reserveStripe ws m).1.rows.zipIdx (reserveStripe ws m).1.firstRowNumber := by
    unfold reserveStripe WriteState.numbered
    cases hs : ws.stripe with
    | some st =>
      refine ⟨?_, hroom st (by simp [hs]), rfl⟩
      have heq : ({ ws with stripe := some st } : WriteState ρ) = ws := by rw [← hs]
      rw [heq]
      exact h.numbers
    | none =>
      refine ⟨h.numbers.reserve _ rfl, ?_, rfl⟩
      have := ws.stripeRowLimit.le_rows
      exact Nat.lt_of_lt_of_le (by decide : 0 < 1000) this
  obtain ⟨hnum, hlt, hrows⟩ := hst
  refine ⟨?_, ?_, ?_⟩
  · refine forall_mem_cons.mpr ⟨?_, fun w hw => h.held w (mem_cons_of_mem _ hw)⟩
    exact hheld
  · intro p
    have h1 := h.balanced p
    have hk : (Write.bufferRow ws (reserveStripe ws m).1 row).kept = [] := kept_of_none hnone
    have hb : (Write.bufferRow ws (reserveStripe ws m).1 row).buffered = ws.buffered ++
        [(s.current, (row, (reserveStripe ws m).1.firstRowNumber +
          (reserveStripe ws m).1.rows.length))] := by
      rw [WriteState.buffered, numbered_bufferRow, ← hrows, WriteState.buffered, ← hc]
      simp [tag, Write.bufferRow]
    simp only [flatMap_cons, kept_of_none hnone, hk, hb, Journal.record, countP_append,
      nil_append] at h1 ⊢
    omega
  · refine (hnum.bufferRow row hlt).perm_used ?_
    have hp := Journal.all_record_perm j s.current
      (row, (reserveStripe ws m).1.firstRowNumber + (reserveStripe ws m).1.rows.length)
    simpa [usedNumbers] using (hp.map (·.2)).symm

/-- A row is written, and the stripe flushed when it is full. -/
theorem writeRow {m : Metapage} (h : Inv first m.reservedRowNumber s (ws :: rest) groups j)
    (hc : ws.subid = s.current) (hroom : ws.Room) (row : ρ) :
    Inv first (writeRow s.current ws m row).metapage.reservedRowNumber s
      ((writeRow s.current ws m row).state :: rest)
      (groups ++ (writeRow s.current ws m row).groups)
      (j.record s.current (row, (writeRow s.current ws m row).rowNumber)) := by
  have hb := h.bufferRow hc hroom row
  exact hb.flush (flushed_flushAtLimit (hb.held _ mem_cons_self) hc)

end Inv

/-! ### Finding the write state -/

theorem findState_eq_some {subid : ℕ} {l : List (WriteState ρ)} {f : Focus ρ}
    (h : findState subid l = some f) : l = f.states ∧ f.state.subid = subid := by
  induction l generalizing f with
  | nil => cases h
  | cons ws l ih =>
    rw [findState] at h
    split at h
    · next hs =>
      cases h
      exact ⟨rfl, hs⟩
    · obtain ⟨g, hg, rfl⟩ := Option.map_eq_some_iff.mp h
      obtain ⟨hl, hsub⟩ := ih hg
      refine ⟨?_, hsub⟩
      rw [hl]
      rfl

theorem Focus.states_perm (f : Focus ρ) :
    f.states.Perm (f.state :: (f.before ++ f.after)) := perm_middle

variable {j : Journal (ρ × ℕ)}

/-- The write state to append to: the current subtransaction's, in a list that
still satisfies the invariant. -/
theorem Inv.getWriteState {first next : ℕ} {states : List (WriteState ρ)}
    {groups : List (RowGroup ρ)} (h : Inv first next s states groups j)
    (hroom : ∀ ws ∈ states, ws.Room) (natts : ℕ) (limit : RowLimit) :
    let o := getWriteState s.current natts limit states
    o.1.state.subid = s.current ∧ (∀ ws ∈ o.1.states, ws.Room) ∧
      Inv first next s (o.1.state :: (o.1.before ++ o.1.after)) (groups ++ o.2) j := by
  have hnew : (newWriteState s.current natts limit : WriteState ρ).Room := by
    intro st hst
    cases hst
  unfold Write.getWriteState
  cases hfind : findState s.current states with
  | none =>
    refine ⟨rfl, ?_, ?_⟩
    · refine forall_mem_append.mpr ⟨hroom, forall_mem_singleton.mpr ?_⟩
      exact hnew
    · simpa using h.openNew natts limit
  | some f =>
    obtain ⟨hstates, hsub⟩ := findState_eq_some hfind
    have hf := h.perm (hstates ▸ f.states_perm)
    dsimp only
    split
    · refine ⟨hsub, hstates ▸ hroom, ?_⟩
      simpa using hf
    · -- another column count: the old buffer is written out, dropped and replaced
      have hflush := flushed_withProjections (hf.held _ mem_cons_self) hsub
      have hempty : (flushWithProjections s.current false f.state).1.numbered = [] :=
        numbered_flushRowGroup s.current f.state
      refine ⟨rfl, ?_, ?_⟩
      · intro ws hws
        have hmem : ws ∈ f.states ∨ ws = newWriteState s.current natts limit := by
          simp only [Focus.states, mem_append, mem_cons, not_mem_nil, or_false] at hws ⊢
          tauto
        rcases hmem with hws | rfl
        · exact hroom ws (hstates ▸ hws)
        · exact hnew
      · simpa using ((hf.flush hflush).drop hempty).openNew natts limit

/-! ### Subtransaction ends -/

theorem promoteWriteState_subid (c p : ℕ) (ws : WriteState ρ) :
    (promoteWriteState c p ws).subid = promote c p ws.subid := by
  unfold promoteWriteState
  dsimp only
  split
  · split <;> rfl
  · rfl

theorem shrunk_promote (c p : ℕ) (ws : WriteState ρ) : Shrunk (promoteWriteState c p ws) ws := by
  unfold promoteWriteState
  dsimp only
  split
  · split
    · exact ⟨Or.inr rfl, rfl⟩
    · exact ⟨Or.inl rfl, rfl⟩
  · exact ⟨Or.inl rfl, rfl⟩

theorem shrunk_discard {c : ℕ} {ws' : WriteState ρ} (h : ws' ∈ discardWriteState c ws) :
    Shrunk ws' ws := by
  unfold discardWriteState at h
  split at h
  · cases h
  · split at h <;> cases h <;> exact ⟨Or.inl rfl, rfl⟩

theorem held_promote {t : Stack} (ht : s.pop = some t) (h : Held s ws.subid ws.flushedUnder) :
    Held t (promoteWriteState s.current t.current ws).subid
      (promoteWriteState s.current t.current ws).flushedUnder := by
  have hmem := promote_mem ht h.owner_mem
  rw [promoteWriteState_subid]
  unfold promoteWriteState
  by_cases hu : ws.flushedUnder = some s.current
  · rw [if_pos hu]
    split
    · exact Held.none hmem
    · next hne => exact Held.current hmem (Ne.symm hne)
  · rw [if_neg hu]
    refine ⟨hmem, ?_, ?_⟩
    · intro u hm
      refine (Stack.mem_pop ht).mpr ⟨h.under_mem u hm, ?_⟩
      rintro rfl
      exact hu hm
    · intro u hm
      -- the owner is above `u`, so it is not the subtransaction that commits
      have hlt := h.owner_lt u hm
      have hle := Stack.le_current (h.under_mem u hm)
      rw [promote_of_ne (by omega)]
      exact hlt

/-- Commit moves the rows of one write state with the tags of the catalog. -/
theorem rows_promote (c p : ℕ) (ws : WriteState ρ) (q : ℕ × (ρ × ℕ) → Bool) :
    (promoteWriteState c p ws).buffered.countP q +
        (ws.kept.map (Prod.map (promote c p) id)).countP q =
      (ws.buffered.map (Prod.map (promote c p) id)).countP q +
        (promoteWriteState c p ws).kept.countP q := by
  have htag : ∀ u (l : List (ρ × ℕ)), (tag u l).map (Prod.map (promote c p) id) =
      tag (promote c p u) l := by
    intro u l
    simp [tag, comp_def]
  have hbuf : ws.buffered.map (Prod.map (promote c p) id) =
      tag (promote c p ws.subid) ws.numbered := htag _ _
  rw [hbuf]
  by_cases hu : ws.flushedUnder = some c
  · have hkept : ws.kept.map (Prod.map (promote c p) id) = tag p ws.numbered := by
      rw [WriteState.kept, hu, htag, promote_self]
    rw [hkept]
    unfold promoteWriteState
    dsimp only
    rw [if_pos hu]
    split
    · next howner =>
      rw [← howner]
      simp [WriteState.buffered, WriteState.kept, WriteState.numbered, WriteState.resetProjections,
        WriteState.resetStripe, tag]
    · rfl
  · have hsame : promoteWriteState c p ws = { ws with subid := promote c p ws.subid } := by
      simp [promoteWriteState, hu]
    have hkept : ws.kept.map (Prod.map (promote c p) id) = ws.kept := by
      unfold WriteState.kept
      cases hf : ws.flushedUnder with
      | none => rfl
      | some u =>
        have hne : u ≠ c := by
          rintro rfl
          exact hu hf
        rw [htag, promote_of_ne hne]
    rw [hkept, hsame]
    rfl

namespace Inv

variable {first next : ℕ} {states : List (WriteState ρ)} {groups : List (RowGroup ρ)}
  {j : Journal (ρ × ℕ)} {t : Stack}

theorem commit (h : Inv first next s states groups j) (ht : s.pop = some t) :
    Inv first next t (states.map (promoteWriteState s.current t.current))
      (groups.map fun g => { g with subid := promote s.current t.current g.subid })
      (j.commit s.current t.current) where
  held := by
    intro w hw
    obtain ⟨ws, hws, rfl⟩ := mem_map.mp hw
    exact held_promote ht (h.held ws hws)
  balanced := by
    intro q
    have hsum : ∀ l : List (WriteState ρ),
        ((l.map (promoteWriteState s.current t.current)).flatMap WriteState.buffered).countP q +
          ((l.flatMap WriteState.kept).map (Prod.map (promote s.current t.current) id)).countP q =
        ((l.flatMap WriteState.buffered).map (Prod.map (promote s.current t.current) id)).countP q +
          ((l.map (promoteWriteState s.current t.current)).flatMap WriteState.kept).countP q := by
      intro l
      induction l with
      | nil => rfl
      | cons ws l ih =>
        have h2 := rows_promote s.current t.current ws q
        simp only [flatMap_cons, map_cons, map_append, countP_append] at ih ⊢
        omega
    have h1 := h.balanced (q ∘ Prod.map (promote s.current t.current) id)
    have h2 := hsum states
    simp only [← countP_map] at h1
    rw [catalogRows_promote, Journal.commit]
    dsimp only
    omega
  numbers := by
    rw [usedNumbers, Journal.all_commit]
    exact h.numbers.map fun ws _ => shrunk_promote _ _ ws

theorem abort (h : Inv first next s states groups j) (ht : s.pop = some t) :
    Inv first next t (states.filterMap (discardWriteState s.current))
      (groups.filter (·.subid ≠ s.current)) (j.abort s.current) where
  held := by
    intro w hw
    obtain ⟨ws, hws, hd⟩ := mem_filterMap.mp hw
    have hheld := h.held ws hws
    unfold discardWriteState at hd
    obtain ⟨hne, hd⟩ := Option.ite_none_left_eq_some.mp hd
    have hmem := (Stack.mem_pop ht).mpr ⟨hheld.owner_mem, hne⟩
    split at hd
    · cases hd
      exact Held.none hmem
    · next hu =>
      cases hd
      refine ⟨hmem, ?_, hheld.owner_lt⟩
      intro u hm
      refine (Stack.mem_pop ht).mpr ⟨hheld.under_mem u hm, ?_⟩
      rintro rfl
      exact hu hm
  balanced := by
    intro q
    have hsum : ∀ l : List (WriteState ρ), (∀ ws ∈ l, Held s ws.subid ws.flushedUnder) →
        (l.filterMap (discardWriteState s.current)).flatMap WriteState.buffered =
          (l.flatMap WriteState.buffered).filter (·.1 ≠ s.current) ∧
        (l.filterMap (discardWriteState s.current)).flatMap WriteState.kept =
          (l.flatMap WriteState.kept).filter (·.1 ≠ s.current) := by
      intro l hl
      -- a state of the subtransaction goes; one that it had written out is kept no longer
      induction l with
      | nil => exact ⟨rfl, rfl⟩
      | cons ws l ih =>
        obtain ⟨ih1, ih2⟩ := ih fun w hw => hl w (mem_cons_of_mem _ hw)
        have hheld := hl ws mem_cons_self
        have hbuf : ws.buffered.filter (·.1 ≠ s.current) =
            if ws.subid = s.current then [] else ws.buffered := filter_tag _ _ _
        have hkept : ws.kept.filter (·.1 ≠ s.current) =
            if ws.flushedUnder = some s.current then [] else ws.kept := by
          unfold WriteState.kept
          cases ws.flushedUnder with
          | none => simp
          | some u =>
            rw [filter_tag]
            simp
        rw [flatMap_cons, flatMap_cons, filter_append, filter_append, hbuf,
          hkept, ← ih1, ← ih2, filterMap_cons]
        by_cases hc : ws.subid = s.current
        · -- dropped; the current subtransaction's buffers are never kept ones
          simp [discardWriteState, hc, kept_of_none (hheld.under_eq_none hc)]
        · by_cases hu : ws.flushedUnder = some s.current
          · simp [discardWriteState, hc, hu, WriteState.buffered, WriteState.kept,
              WriteState.numbered]
          · simp [discardWriteState, hc, hu]
    obtain ⟨h2, h3⟩ := hsum states h.held
    have h1 := h.balanced fun x => q x && decide (x.1 ≠ s.current)
    rw [catalogRows_filter, h2, h3, Journal.abort]
    simpa only [countP_filter] using h1
  numbers := by
    have hp := (Journal.all_abort_perm j s.current).map (·.2)
    exact (h.numbers.perm_used hp.symm).filterMap fun ws _ ws' hd => shrunk_discard hd

end Inv

/-! ### Runs -/

theorem room_flushAtLimit (current : ℕ) (ws : WriteState ρ) : (flushAtLimit current ws).1.Room := by
  unfold flushAtLimit
  split
  · unfold flushRowGroup
    cases hs : ws.stripe with
    | none =>
      intro st hst
      rw [hs] at hst
      cases hst
    | some st =>
      dsimp only
      split
      · next hlen =>
        intro st' hst'
        rw [hs] at hst'
        cases hst'
        have hle := ws.stripeRowLimit.le_rows
        dsimp only
        omega
      · intro st' hst'
        cases hst'
  · next hlt =>
    intro st hst
    have hst' : ws.stripe = some st := hst
    simp only [WriteState.stripeRowCount, hst'] at hlt
    dsimp only
    omega

theorem Inv.fanoutRow {first next : ℕ} {rest : List (WriteState ρ)} {groups : List (RowGroup ρ)}
    (h : Inv first next s (ws :: rest) groups j) (projections : ℕ) :
    Inv first next s (fanoutRow projections ws :: rest) groups j := by
  have hf := h.flush (flushed_fanoutRow (h.held ws mem_cons_self) projections)
  rwa [append_nil] at hf

namespace History

variable {first : ℕ} {h h' : History ρ}

theorem inv_start (m : Metapage) : (start m : History ρ).Inv m.reservedRowNumber := by
  refine ⟨⟨?_, fun p => rfl, ⟨Nat.le_refl _, ?_, ?_, ?_, ?_, ?_⟩⟩, ?_⟩ <;>
    simp [start, usedNumbers, Journal.all, Journal.empty]

theorem Inv.openState (hi : h.Inv first) (natts : ℕ) (limit : RowLimit) :
    Inv first { h with session := { h.session with
      states := (h.session.openState natts limit).1.states
      rowGroups := h.session.rowGroups ++ (h.session.openState natts limit).2 } } := by
  obtain ⟨-, hroom, hopen⟩ := hi.core.getWriteState hi.room natts limit
  exact ⟨hopen.perm (Focus.states_perm _).symm, hroom⟩

theorem Inv.append (hi : h.Inv first) (natts : ℕ) (limit : RowLimit) (projections : ℕ) (row : ρ) :
    Inv first ⟨(h.session.append natts limit projections row).1,
      h.journal.record h.session.stack.current
        (row, (h.session.append natts limit projections row).2)⟩ := by
  obtain ⟨hsub, hroom, hopen⟩ := hi.core.getWriteState hi.room natts limit
  have hw := (hopen.writeRow hsub (hroom _ (by simp [Focus.states])) row).fanoutRow projections
  have hafter := flushed_afterAppend (hw.held _ mem_cons_self)
  refine ⟨(hw.flush hafter).perm (Focus.states_perm ⟨_, _, _⟩).symm, ?_⟩
  intro ws hws
  have hmem := (Focus.states_perm _).mem_iff.mp hws
  rcases mem_cons.mp hmem with rfl | hmem
  · exact hafter.shrunk.room (room_flushAtLimit _ _)
  · exact hroom ws ((Focus.states_perm _).mem_iff.mpr (mem_cons_of_mem _ hmem))

theorem Inv.forEach (hi : h.Inv first) {f : WriteState ρ → WriteState ρ × List (RowGroup ρ)}
    (hf : ∀ ws ∈ h.session.states, Flushed h.session.stack ws (f ws)) :
    Inv first { h with session := h.session.forEach f } := by
  refine ⟨hi.core.forEach hf, ?_⟩
  intro w hw
  obtain ⟨ws, hws, rfl⟩ := mem_map.mp hw
  exact (hf ws hws).shrunk.room (hi.room ws hws)

/-- Every action keeps the invariant. -/
theorem Inv.step (hi : h.Inv first) (a : Action ρ) (hs : h.step a = some h') : h'.Inv first := by
  cases a with
  | openState natts limit =>
    cases hs
    exact hi.openState natts limit
  | append natts limit projections row =>
    cases hs
    exact hi.append natts limit projections row
  | readFlush =>
    cases hs
    exact hi.forEach fun ws hws => flushed_flushWriteState (hi.core.held ws hws)
  | statementEnd =>
    cases hs
    exact hi.forEach fun ws hws => flushed_flushPendingWrites (hi.core.held ws hws)
  | startSubXact =>
    cases hs
    exact ⟨⟨fun ws hws => (hi.core.held ws hws).push, hi.core.balanced, hi.core.numbers⟩, hi.room⟩
  | commitSubXact =>
    simp only [History.step, Session.commitSubXact, Option.map_map] at hs
    obtain ⟨t, ht, rfl⟩ := Option.map_eq_some_iff.mp hs
    refine ⟨hi.core.commit ht, ?_⟩
    intro w hw
    obtain ⟨ws, hws, rfl⟩ := mem_map.mp hw
    exact (shrunk_promote _ _ ws).room (hi.room ws hws)
  | abortSubXact =>
    simp only [History.step, Session.abortSubXact, Option.map_map] at hs
    obtain ⟨t, ht, rfl⟩ := Option.map_eq_some_iff.mp hs
    refine ⟨hi.core.abort ht, ?_⟩
    intro w hw
    obtain ⟨ws, hws, hd⟩ := mem_filterMap.mp hw
    exact (shrunk_discard hd).room (hi.room ws hws)
  | reserve rowCount =>
    cases hs
    exact ⟨⟨hi.core.held, hi.core.balanced, hi.core.numbers.mono (Nat.le_add_right _ _)⟩, hi.room⟩

theorem Inv.run (hi : h.Inv first) {as : List (Action ρ)}
    (hr : Run.run History.step h as = some h') :
    h'.Inv first :=
  Run.run_invariant (fun _ a _ hi hs => Inv.step hi a hs) hi hr

/-- When only the top-level transaction is open no buffer is kept, as
`PgColumnarFlushAllPendingWrites` asserts. -/
theorem Inv.flushedUnder_eq_none (hi : h.Inv first) (htop : h.session.stack.outer = []) :
    ∀ ws ∈ h.session.states, ws.flushedUnder = none :=
  fun ws hws => (hi.core.held ws hws).under_eq_none_of_outer htop

/-- What `PgColumnarFlushAllPendingWrites` leaves in the catalog. -/
theorem Inv.flushAllPendingWrites_perm (hi : h.Inv first) (htop : h.session.stack.outer = []) :
    (numberedRows h.session.flushAllPendingWrites.rowGroups).Perm (h.journal.live.map (·.2)) := by
  classical
  have hcur : ∀ ws ∈ h.session.states, ws.subid = h.session.stack.current := by
    intro ws hws
    have hm := (hi.core.held ws hws).owner_mem
    simpa only [Stack.ids, htop, mem_singleton] using hm
  have hflush : Inv first { h with session := h.session.flushAllPendingWrites } :=
    hi.forEach fun ws hws => flushed_withProjections (hi.core.held ws hws) (hcur ws hws)
  -- every buffer is empty afterwards, so the balance is between catalog and journal
  have hempty : ∀ ws ∈ h.session.flushAllPendingWrites.states, ws.numbered = [] := by
    intro w hw
    obtain ⟨ws, -, rfl⟩ := mem_map.mp hw
    exact numbered_flushRowGroup _ ws
  have hbuf : h.session.flushAllPendingWrites.states.flatMap WriteState.buffered = [] := by
    rw [flatMap_eq_nil_iff]
    intro w hw
    simp [WriteState.buffered, hempty w hw, tag]
  have hkept : h.session.flushAllPendingWrites.states.flatMap WriteState.kept = [] := by
    rw [flatMap_eq_nil_iff]
    intro w hw
    exact kept_of_none (hflush.flushedUnder_eq_none htop w hw)
  rw [← map_snd_catalogRows]
  refine List.Perm.map _ (perm_iff_count.mpr ?_)
  intro x
  have hb := hflush.core.balanced (· == x)
  rw [hbuf, hkept] at hb
  simpa [count_eq_countP] using hb

/-- **The rows of a committed transaction.**  Whatever subtransactions it had and
however appends, reads, statement ends and subtransaction ends came, when only the
top level is left and the pre-commit flush has run, the row groups hold the rows of
the subtransactions that committed, each once and under the number it was appended
with, and none of a subtransaction that aborted. -/
theorem committed_rows (m : Metapage) (as : List (Action ρ)) (h : History ρ)
    (hr : Run.run History.step (start m) as = some h) (htop : h.session.stack.outer = []) :
    let visible := numberedRows h.session.flushAllPendingWrites.rowGroups
    visible.Perm (h.journal.live.map (·.2)) ∧ (visible.map (·.2)).Nodup ∧
      (∀ x ∈ h.journal.dead, x.2 ∉ visible.map (·.2)) ∧
      ∀ x ∈ visible, m.reservedRowNumber ≤ x.2 := by
  intro visible
  have hi := (inv_start m).run hr
  have hperm : visible.Perm (h.journal.live.map (·.2)) := hi.flushAllPendingWrites_perm htop
  have hnums : (visible.map (·.2)).Perm ((h.journal.live.map (·.2)).map (·.2)) := hperm.map _
  have hnodup : ((h.journal.live.map (·.2)).map (·.2) ++ h.journal.dead.map (·.2)).Nodup := by
    have hn := hi.core.numbers.nodup
    rwa [usedNumbers, Journal.all, map_append] at hn
  obtain ⟨hlive, -, hdisj⟩ := nodup_append.mp hnodup
  refine ⟨hperm, hnums.nodup_iff.mpr hlive, ?_, ?_⟩
  · intro x hx hmem
    exact hdisj x.2 (hnums.mem_iff.mp hmem) x.2 (mem_map_of_mem hx) rfl
  · intro x hx
    refine (hi.core.numbers.bounds x.2 ?_).1
    exact mem_map_of_mem (mem_append_left _ (hperm.mem_iff.mp hx))

/-- Four appends and two reads around a savepoint that is rolled back and one that
is released. -/
def savepointRun : List (Action ℕ) :=
  [.append 2 .least 0 10, .startSubXact, .append 2 .least 0 20,
    .readFlush, .abortSubXact, .append 2 .least 0 30, .startSubXact, .readFlush,
    .append 2 .least 0 40, .commitSubXact]

theorem committed_rows_savepoints :
    ∃ h : History ℕ, Run.run History.step (start ⟨0, 1⟩) savepointRun = some h ∧
      (numberedRows h.session.flushAllPendingWrites.rowGroups).Perm [(10, 1), (30, 2), (40, 2001)] ∧
      h.journal.dead = [(20, 1001)] := by
  have hcase : (Run.run History.step (start ⟨0, 1⟩) savepointRun).map (fun h =>
      (h.session.stack.outer, h.journal.live.map (·.2), h.journal.dead)) =
        some ([], [(10, 1), (30, 2), (40, 2001)], [(20, 1001)]) := by decide +kernel
  obtain ⟨h, hr, heq⟩ := Option.map_eq_some_iff.mp hcase
  simp only [Prod.mk.injEq] at heq
  refine ⟨h, hr, ?_, heq.2.2⟩
  rw [← heq.2.1]
  exact (committed_rows ⟨0, 1⟩ savepointRun h hr heq.1).1

end History

end PgColumnar.Write
