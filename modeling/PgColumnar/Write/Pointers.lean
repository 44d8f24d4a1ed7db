import Mathlib.Algebra.GroupWithZero.Nat
import PgColumnar.Scan.TidRange
import PgColumnar.Write.Protocol

/-!
# The item pointers of appended rows

A row number is a `uint64` counter that no writer looks at before it takes a whole
`stripe_row_limit` from it, and the block number of an item pointer has 32 bits.  The
writers of one storage, in whatever order they append and flush, give every row a valid
item pointer of its own as long as the counter has not left the last block below
`InvalidBlockNumber`.

## Main definitions

* `appendRow` — an append, with the item pointer of its row.
* `Holds` — pointers are valid and a row's own.

## Main results

* `itemPointers_hold` — in every run whose appends fit.
-/

namespace PgColumnar.Write.Pointers

open Run List Nat
open TidRange (ItemPointer BlockOffsets rowNumberToItemPointer itemPointerToRowNumber)

variable {ρ : Type*} (K : BlockOffsets)

/-- The write states on one storage, of any number of backends, with what they did:
`used` are the numbers of the appended rows, `ranges` the reservations. -/
structure Writers (ρ : Type*) where
  metapage : Metapage
  states : List (WriteState ρ)
  used : List ℕ
  ranges : List (ℕ × ℕ)

/-- `COLUMNAR_FIRST_ROW_NUMBER` is in the metapage of a new storage. -/
def Writers.start : Writers ρ := ⟨⟨1, 1⟩, [], [], []⟩

/-- `drop` is the end of a write state, with its transaction or before. -/
inductive Action (ρ : Type*) where
  | openState (subid natts : ℕ) (limit : RowLimit)
  | writeRow (i : ℕ) (row : ρ)
  | flush (i : ℕ)
  | drop (i : ℕ)

/-- The counters are `uint64`. -/
def wrapped (m : Metapage) : Metapage :=
  ⟨m.reservedStripeId % 2 ^ 64, m.reservedRowNumber % 2 ^ 64⟩

/-- `PgColumnarWriteRow` for one of the write states. -/
def appendRow (s : Writers ρ) (i : ℕ) (ws : WriteState ρ) (row : ρ) : Writers ρ where
  metapage := wrapped (writeRow ws.subid ws s.metapage row).metapage
  states := s.states.set i (writeRow ws.subid ws s.metapage row).state
  used := (writeRow ws.subid ws s.metapage row).rowNumber % 2 ^ 64 :: s.used
  ranges :=
    match ws.stripe with
    | some _ => s.ranges
    | none => (s.metapage.reservedRowNumber, ws.stripeRowLimit.rows) :: s.ranges

def step (s : Writers ρ) : Action ρ → Option (Writers ρ)
  | .openState subid natts limit =>
    some { s with states := s.states ++ [newWriteState subid natts limit] }
  | .writeRow i row => s.states[i]?.map fun ws => appendRow s i ws row
  | .flush i => s.states[i]?.map fun ws =>
    { s with states := s.states.set i (flushRowGroup ws.subid false ws).1 }
  | .drop i => some { s with states := s.states.eraseIdx i }

/-- A heap item pointer: `ItemPointerIsValid`, no block that stands for none, and an offset
that a heap page can have. -/
def Valid (tid : ItemPointer) : Prop :=
  tid.block.toNat < 2 ^ 32 - 1 ∧ 1 ≤ tid.offset.toNat ∧ tid.offset.toNat ≤ K.k

/-- The rows have valid item pointers of their own, and every reserved number can be read
back from its item pointer. -/
structure Holds (s : Writers ρ) : Prop where
  nodup : (s.used.map (rowNumberToItemPointer K)).Nodup
  valid : ∀ n ∈ s.used, Valid K (rowNumberToItemPointer K n)
  undone : ∀ r ∈ s.ranges, ∀ n, r.1 ≤ n → n < r.1 + r.2 →
    itemPointerToRowNumber K (rowNumberToItemPointer K n) = n

/-- The next row number lies below the last block, and a reservation that it needs ends with
this block at the latest. -/
def Room (m : Metapage) (ws : WriteState ρ) : Prop :=
  match ws.stripe with
  | some st => st.firstRowNumber + st.rows.length < (2 ^ 32 - 1) * K.k
  | none =>
    m.reservedRowNumber < (2 ^ 32 - 1) * K.k ∧
      m.reservedRowNumber + ws.stripeRowLimit.rows ≤ 2 ^ 32 * K.k

def Fits (s : Writers ρ) : Action ρ → Prop
  | .writeRow i _ => ∀ ws ∈ s.states[i]?, Room K s.metapage ws
  | .openState .. | .flush _ | .drop _ => True

variable {K} {s t : Writers ρ} {n : ℕ}

/-! ### Item pointers -/

theorem valid_iff (h : n < 2 ^ 32 * K.k) :
    Valid K (rowNumberToItemPointer K n) ↔ n < (2 ^ 32 - 1) * K.k := by
  have hdiv : n / K.k < 2 ^ 32 := (div_lt_iff_lt_mul K.pos).mpr h
  have hblock : (rowNumberToItemPointer K n).block.toNat = n / K.k :=
    UInt32.toNat_ofNat_of_lt' hdiv
  have hmod := mod_lt n K.pos
  rw [Valid, hblock, TidRange.offset_rowNumberToItemPointer, ← div_lt_iff_lt_mul K.pos]
  omega

/-- An item pointer stands for no row number past the last block. -/
theorem itemPointerToRowNumber_lt :
    itemPointerToRowNumber K (rowNumberToItemPointer K n) < 2 ^ 32 * K.k := by
  have hmod := mod_lt n K.pos
  have hblock := TidRange.block_mul_le (k := K.k) (rowNumberToItemPointer K n).block.toNat_lt
  rw [itemPointerToRowNumber, TidRange.offset_rowNumberToItemPointer]
  omega

/-! ### The invariant -/

/-- Between two actions: the numbers are given out once, no stripe is full, and nothing has
been taken past the last block. -/
structure Inv (K : BlockOffsets) (s : Writers ρ) : Prop where
  numbers : Numbering 1 s.metapage.reservedRowNumber s.used s.states
  room : ∀ ws ∈ s.states, ws.Room
  counter : s.metapage.reservedRowNumber ≤ 2 ^ 32 * K.k
  used_lt : ∀ n ∈ s.used, n < (2 ^ 32 - 1) * K.k
  ranges_le : ∀ r ∈ s.ranges, r.1 + r.2 ≤ 2 ^ 32 * K.k

theorem Inv.holds (h : Inv K s) : Holds K s := by
  have hlt : ∀ n ∈ s.used, n < 2 ^ 32 * K.k := fun n hn =>
    lt_of_lt_of_le (h.used_lt n hn) (mul_le_mul_right _ (by omega))
  refine ⟨h.numbers.nodup.map_on ?_, fun n hn => (valid_iff (hlt n hn)).mpr (h.used_lt n hn), ?_⟩
  · intro a ha b hb heq
    rw [← TidRange.itemPointerToRowNumber_rowNumberToItemPointer (hlt a ha), heq]
    exact TidRange.itemPointerToRowNumber_rowNumberToItemPointer (hlt b hb)
  · intro r hr n _ hn
    have := h.ranges_le r hr
    exact TidRange.itemPointerToRowNumber_rowNumberToItemPointer (by omega)

theorem inv_start : Inv K (Writers.start : Writers ρ) where
  numbers := ⟨le_refl 1, nodup_nil, nofun, nofun, nofun, List.Pairwise.nil⟩
  room := nofun
  counter := Nat.mul_pos (by decide) K.pos
  used_lt := nofun
  ranges_le := nofun

/-- The write states change, and none of them holds more than before. -/
theorem Inv.withStates (h : Inv K s) {states : List (WriteState ρ)}
    (hn : Numbering 1 s.metapage.reservedRowNumber s.used states)
    (hr : ∀ ws ∈ states, ws.Room) : Inv K { s with states := states } :=
  ⟨hn, hr, h.counter, h.used_lt, h.ranges_le⟩

/-- The row is buffered, and a full stripe is flushed. -/
theorem numbering_written {first next : ℕ} {used : List ℕ} {ws : WriteState ρ} {st : Stripe ρ}
    {rest : List (WriteState ρ)} (row : ρ)
    (h : Numbering first next used ({ ws with stripe := some st } :: rest))
    (hroom : st.rows.length < ws.stripeRowLimit.rows) :
    Numbering first next ((st.firstRowNumber + st.rows.length) :: used)
        ((flushAtLimit ws.subid (bufferRow ws st row)).1 :: rest) ∧
      (flushAtLimit ws.subid (bufferRow ws st row)).1.Room := by
  have hb := h.bufferRow row hroom
  have hlen : (bufferRow ws st row).stripeRowCount = st.rows.length + 1 := by
    simp [bufferRow, WriteState.stripeRowCount]
  rw [flushAtLimit, hlen]
  by_cases hfull : (bufferRow ws st row).stripeRowLimit.rows ≤ st.rows.length + 1
  · have hnone : (flushRowGroup ws.subid false (bufferRow ws st row)).1 =
        (bufferRow ws st row).resetStripe := by
      simp [flushRowGroup, bufferRow, WriteState.resetStripe]
    rw [if_pos hfull, hnone]
    exact ⟨hb.shrink ⟨Or.inr rfl, rfl⟩, fun _ h => by cases h⟩
  · rw [if_neg hfull]
    refine ⟨hb, ?_⟩
    intro st' hst'
    cases hst'
    simpa using hfull

/-! ### Steps -/

variable {ws : WriteState ρ} {i : ℕ} {row : ρ}

/-- The write state that a row goes to, ahead of the others. -/
theorem Inv.focus (h : Inv K s) (hi : s.states[i]? = some ws) :
    Numbering 1 s.metapage.reservedRowNumber s.used (ws :: s.states.eraseIdx i) ∧ ws.Room ∧
      ∀ a : WriteState ρ, (s.states.set i a).Perm (a :: s.states.eraseIdx i) := by
  obtain ⟨hlt, rfl⟩ := List.getElem?_eq_some_iff.mp hi
  refine ⟨h.numbers.perm (getElem_cons_eraseIdx_perm hlt).symm,
    h.room _ (getElem_mem hlt), fun a => set_perm_cons_eraseIdx hlt a⟩

/-- A row is appended under a reservation, which may be fresh. -/
theorem Inv.append (h : Inv K s) (hi : s.states[i]? = some ws) {st : Stripe ρ} {next : ℕ}
    {ranges : List (ℕ × ℕ)} (id : ℕ)
    (hnum : Numbering 1 next s.used ({ ws with stripe := some st } :: s.states.eraseIdx i))
    (hlen : st.rows.length < ws.stripeRowLimit.rows) (hnext : next ≤ 2 ^ 32 * K.k)
    (hlt : st.firstRowNumber + st.rows.length < (2 ^ 32 - 1) * K.k)
    (hr : ∀ r ∈ ranges, r.1 + r.2 ≤ 2 ^ 32 * K.k) :
    Inv K ⟨wrapped ⟨id, next⟩, s.states.set i (flushAtLimit ws.subid (bufferRow ws st row)).1,
      (st.firstRowNumber + st.rows.length) % 2 ^ 64 :: s.used, ranges⟩ := by
  obtain ⟨-, -, hperm⟩ := h.focus hi
  obtain ⟨hbuf, hroom⟩ := numbering_written row hnum hlen
  -- nothing wraps below the last block
  have hk := K.lt
  have hmod : (st.firstRowNumber + st.rows.length) % 2 ^ 64 = st.firstRowNumber + st.rows.length :=
    Nat.mod_eq_of_lt (by omega)
  have hcounter : (wrapped ⟨id, next⟩).reservedRowNumber = next :=
    Nat.mod_eq_of_lt (show next < 2 ^ 64 by omega)
  rw [hmod]
  refine ⟨?_, ?_, by rwa [hcounter], ?_, hr⟩
  · rw [hcounter]
    exact hbuf.perm (hperm _).symm
  · intro w hw
    rcases mem_cons.mp ((hperm _).mem_iff.mp hw) with rfl | hw
    · exact hroom
    · exact h.room w (mem_of_mem_eraseIdx hw)
  · refine forall_mem_cons.mpr ⟨?_, h.used_lt⟩
    exact hlt

theorem Inv.appendRow (h : Inv K s) (hi : s.states[i]? = some ws) (hfit : Room K s.metapage ws) :
    Inv K (appendRow s i ws row) := by
  obtain ⟨hnum, hroom, -⟩ := h.focus hi
  unfold Room at hfit
  unfold Pointers.appendRow writeRow reserveStripe
  cases hst : ws.stripe with
  | some st =>
    rw [hst] at hfit
    have hsame : ({ ws with stripe := some st } : WriteState ρ) = ws := by rw [← hst]
    exact h.append hi _ (hsame ▸ hnum) (hroom st hst) h.counter hfit h.ranges_le
  | none =>
    rw [hst] at hfit
    refine h.append hi _ (hnum.reserve _ rfl) ?_ hfit.2 hfit.1 ?_
    · exact lt_of_lt_of_le (show 0 < 1000 by decide) ws.stripeRowLimit.le_rows
    · refine forall_mem_cons.mpr ⟨?_, h.ranges_le⟩
      exact hfit.2

/-- A row that gets a valid item pointer, under a reservation that can be read back, fits. -/
theorem Inv.room_of_holds (h : Inv K s) (hi : s.states[i]? = some ws)
    (ht : Holds K (Pointers.appendRow s i ws row)) : Room K s.metapage ws := by
  obtain ⟨hnum, hroom, -⟩ := h.focus hi
  have hcounter := h.counter
  have hk := K.lt
  have hvalid := ht.valid _ mem_cons_self
  have hundone := ht.undone
  unfold Room
  unfold Pointers.appendRow writeRow reserveStripe at hundone hvalid
  cases hst : ws.stripe with
  | some st =>
    have hres := (hnum.reserved ws mem_cons_self st hst).1
    have hlen := hroom st hst
    rw [hst] at hvalid
    have hlt : st.firstRowNumber + st.rows.length < 2 ^ 32 * K.k := by omega
    rw [Nat.mod_eq_of_lt (show st.firstRowNumber + st.rows.length < 2 ^ 64 by omega)] at hvalid
    exact (valid_iff hlt).mp hvalid
  | none =>
    have hlimit := ws.stripeRowLimit.le_rows
    simp only [hst] at hundone hvalid
    -- a reservation across the end of the last block has a number that cannot be read back
    have hend : s.metapage.reservedRowNumber + ws.stripeRowLimit.rows ≤ 2 ^ 32 * K.k := by
      by_contra hover
      have hback := hundone _ mem_cons_self (2 ^ 32 * K.k) hcounter (Nat.lt_of_not_le hover)
      have hlt : itemPointerToRowNumber K (rowNumberToItemPointer K (2 ^ 32 * K.k)) <
          2 ^ 32 * K.k := itemPointerToRowNumber_lt
      omega
    refine ⟨?_, hend⟩
    rw [length_nil, Nat.add_zero, Nat.mod_eq_of_lt (by omega)] at hvalid
    exact (valid_iff (by omega)).mp hvalid

theorem Inv.step (h : Inv K s) (a : Action ρ) (hstep : step s a = some t) (hfit : Fits K s a) :
    Inv K t := by
  cases a with
  | openState subid natts limit =>
    cases hstep
    refine h.withStates ((h.numbers.cons_empty rfl).perm
      (perm_append_singleton (newWriteState subid natts limit) _).symm) ?_
    refine forall_mem_append.mpr ⟨h.room, forall_mem_singleton.mpr ?_⟩
    exact nofun
  | writeRow i row =>
    obtain ⟨ws, hi, rfl⟩ := Option.map_eq_some_iff.mp hstep
    exact h.appendRow hi (hfit ws hi)
  | flush i =>
    obtain ⟨ws, hi, rfl⟩ := Option.map_eq_some_iff.mp hstep
    obtain ⟨hnum, hroom, hperm⟩ := h.focus hi
    have hshrunk : Shrunk (flushRowGroup ws.subid false ws).1 ws :=
      have hframe := flushRowGroup_frame ws.subid false ws
      ⟨hframe.2.2.2, hframe.2.2.1⟩
    refine h.withStates ((hnum.shrink hshrunk).perm (hperm _).symm) ?_
    intro w hw
    rcases mem_cons.mp ((hperm _).mem_iff.mp hw) with rfl | hw
    · exact hshrunk.room hroom
    · exact h.room w (mem_of_mem_eraseIdx hw)
  | drop i =>
    cases hstep
    refine h.withStates ?_ fun w hw => h.room w (mem_of_mem_eraseIdx hw)
    rcases lt_or_ge i s.states.length with hlt | hge
    · exact (h.numbers.perm (getElem_cons_eraseIdx_perm hlt).symm).tail
    · rw [eraseIdx_of_length_le hge]
      exact h.numbers

/-! ### Runs -/

variable {as : List (Action ρ)}

/-- **Item pointers**: they hold in every state of a run whose appends fit, and the first
append that does not fit breaks them. -/
theorem itemPointers_hold (hrun : run step Writers.start as = some s)
    (hfits : AllSteps step (Fits K) Writers.start as) :
    Holds K s ∧ ∀ a t, step s a = some t → (Holds K t ↔ Fits K s a) := by
  have hinv : Inv K s :=
    run_invariant_of (fun s a t hs hok ht => hs.step a ht hok) inv_start hfits hrun
  refine ⟨hinv.holds, ?_⟩
  intro a t hstep
  refine ⟨?_, fun hfit => (hinv.step a hstep hfit).holds⟩
  intro ht
  cases a with
  | writeRow i row =>
    obtain ⟨ws, hi, rfl⟩ := Option.map_eq_some_iff.mp hstep
    intro ws' hws'
    cases hi.symm.trans hws'
    exact hinv.room_of_holds hi ht
  | openState | flush | drop => trivial

/-- One row by itself, under the default `stripe_row_limit`. -/
def insert (row : ρ) : List (Action ρ) :=
  [.openState 1 1 ⟨150000, by decide⟩, .writeRow 0 row, .drop 0]

theorem fits_insert : AllSteps step (Fits .default) Writers.start (insert ()) := by
  refine ⟨trivial, ?_⟩
  intro s hs
  cases hs
  refine ⟨?_, ?_⟩
  · intro ws hws
    cases hws
    exact ⟨by decide, by decide⟩
  · intro s hs
    cases hs
    exact ⟨trivial, fun _ _ => trivial⟩

theorem itemPointers_hold_insert :
    Holds .default (⟨⟨2, 150001⟩, [], [1], [(1, 150000)]⟩ : Writers Unit) :=
  (itemPointers_hold rfl fits_insert).1

/-- It takes its 150000 numbers. -/
theorem run_insert (hs : s.states = []) (row : ρ)
    (hlt : s.metapage.reservedRowNumber + 150000 < 2 ^ 64) :
    ∃ t : Writers ρ, t.states = [] ∧
      t.metapage.reservedRowNumber = s.metapage.reservedRowNumber + 150000 ∧
      (s.metapage.reservedRowNumber, 150000) ∈ t.ranges ∧
      ∀ bs, run step s (insert row ++ bs) = run step t bs := by
  obtain ⟨m, states, used, ranges⟩ := s
  cases hs
  exact ⟨⟨wrapped (m.reserveRowNumbers 150000), [], m.reservedRowNumber % 2 ^ 64 :: used,
    (m.reservedRowNumber, 150000) :: ranges⟩, rfl, Nat.mod_eq_of_lt hlt, mem_cons_self,
    fun bs => rfl⟩

theorem run_inserts (hs : s.states = []) (row : ρ)
    (hlt : s.metapage.reservedRowNumber + (n + 1) * 150000 < 2 ^ 64) :
    ∃ t, run step s (List.replicate (n + 1) (insert row)).flatten = some t ∧
      (s.metapage.reservedRowNumber + n * 150000, 150000) ∈ t.ranges := by
  induction n generalizing s with
  | zero =>
    obtain ⟨t, -, -, hmem, hrun⟩ := run_insert hs row (by omega)
    exact ⟨t, hrun [], by simpa using hmem⟩
  | succ n ih =>
    obtain ⟨t, ht, hcounter, -, hrun⟩ := run_insert hs row (by omega)
    obtain ⟨t', hrun', hmem'⟩ := ih ht (by omega)
    refine ⟨t', ?_, ?_⟩
    · rw [replicate_succ, flatten_cons, hrun, hrun']
    · rw [hcounter] at hmem'
      have heq : s.metapage.reservedRowNumber + (n + 1) * 150000 =
          s.metapage.reservedRowNumber + 150000 + n * 150000 := by omega
      rwa [heq]

/-- Single rows reach the last block, here after 8332238 of them. -/
theorem not_itemPointers_hold : ¬ ∀ (as : List (Action Unit)) (s : Writers Unit),
      run step Writers.start as = some s → Holds .default s := by
  intro h
  obtain ⟨t, hrun, hmem⟩ := @run_inserts _ Writers.start 8332237 rfl () (by decide)
  have hback := (h _ t hrun).undone _ hmem 1249835550001 (by decide) (by decide)
  exact absurd hback (by decide)

end PgColumnar.Write.Pointers
