import PgColumnar.Sorted.Extent

/-!
# Who drew which stripe id

The part of the state the recorded run depends on: the counter, who drew each id, and what
was written under which id by which rewrite.  Visibility plays no part, so neither does the
moment at which a transaction commits.

## Main definitions

* `Ledger`, `Wf` — which writer drew which id.
* `Marked`, `IsRun` — a mark covers a run of one rewrite.
-/

namespace PgColumnar.Sorted

open Write List Nat

variable {α : Type}

/-- A row group as the ledger keeps it. -/
structure Piece (α : Type) where
  number : ℕ
  rows : List α
  job : Option ℕ

structure Ledger (α : Type) where
  next : ℕ
  owner : ℕ → Option Owner
  pieces : List (Piece α)

namespace Ledger

def draw (l : Ledger α) (o : Owner) : Ledger α :=
  { l with next := l.next + 1, owner := Function.update l.owner l.next (some o) }

def add (l : Ledger α) (ps : List (Piece α)) : Ledger α := { l with pieces := l.pieces ++ ps }

/-- What a rewrite has written, in the order it wrote it. -/
def ofJob (l : Ledger α) (j : ℕ) : List (Piece α) :=
  l.pieces.filter fun p => decide (p.job = some j)

/-- Ids are drawn in order, and a group is written by whoever drew its number. -/
structure Wf (l : Ledger α) (jobs : ℕ) : Prop where
  first_le : newMetapage.reservedStripeId ≤ l.next
  drawn : ∀ n, l.owner n ≠ none ↔ newMetapage.reservedStripeId ≤ n ∧ n < l.next
  owned : ∀ p ∈ l.pieces, l.owner p.number ≠ none
  written : ∀ p ∈ l.pieces, ∀ j, l.owner p.number = some (.job j) → p.job = some j
  old : ∀ p ∈ l.pieces, ∀ j, p.job = some j → j < jobs

variable {l : Ledger α} {jobs : ℕ} {o : Owner} {n j : ℕ}

theorem Wf.lt_next (h : l.Wf jobs) (hn : l.owner n ≠ none) : n < l.next :=
  ((h.drawn n).mp hn).2

theorem draw_owner_of_ne (hn : n ≠ l.next) : (l.draw o).owner n = l.owner n :=
  Function.update_of_ne hn _ _

/-- A draw leaves the owners of the ids drawn before. -/
theorem Wf.draw_owner (h : l.Wf jobs) (hn : l.owner n ≠ none) : (l.draw o).owner n = l.owner n :=
  draw_owner_of_ne (Nat.ne_of_lt (h.lt_next hn))

theorem draw_owner_next : (l.draw o).owner l.next = some o := Function.update_self _ _ _

/-- Every owner after a draw is the one before, or the one who drew. -/
theorem draw_cases {o' : Owner} (hn : (l.draw o).owner n = some o') :
    l.owner n = some o' ∨ n = l.next ∧ o' = o := by
  by_cases hnext : n = l.next
  · subst hnext
    rw [draw_owner_next] at hn
    exact .inr ⟨rfl, (Option.some.inj hn).symm⟩
  · left
    rwa [draw_owner_of_ne hnext] at hn

theorem Wf.draw (h : l.Wf jobs) (o : Owner) : (l.draw o).Wf jobs where
  first_le := le_succ_of_le h.first_le
  drawn n := by
    have hfirst := h.first_le
    by_cases hn : n = l.next
    · subst hn
      rw [draw_owner_next]
      exact ⟨fun _ => ⟨hfirst, lt_succ_self _⟩, fun _ => nofun⟩
    · rw [draw_owner_of_ne hn, h.drawn]
      dsimp only [Ledger.draw]
      omega
  owned p hp := by
    rw [h.draw_owner (h.owned p hp)]
    exact h.owned p hp
  written p hp j hj := by
    rw [h.draw_owner (h.owned p hp)] at hj
    exact h.written p hp j hj
  old := h.old

theorem Wf.add {p : Piece α} (h : l.Wf jobs) (howned : l.owner p.number ≠ none)
    (hwritten : ∀ j, l.owner p.number = some (.job j) → p.job = some j)
    (hold : ∀ j, p.job = some j → j < jobs) : (l.add [p]).Wf jobs where
  first_le := h.first_le
  drawn := h.drawn
  owned q hq := by
    rcases mem_append.mp hq with hq | hq
    · exact h.owned q hq
    · rw [mem_singleton.mp hq]
      exact howned
  written q hq := by
    rcases mem_append.mp hq with hq | hq
    · exact h.written q hq
    · rw [mem_singleton.mp hq]
      exact hwritten
  old q hq := by
    rcases mem_append.mp hq with hq | hq
    · exact h.old q hq
    · rw [mem_singleton.mp hq]
      exact hold

theorem Wf.mono (h : l.Wf jobs) {jobs' : ℕ} (hle : jobs ≤ jobs') : l.Wf jobs' :=
  ⟨h.first_le, h.drawn, h.owned, h.written, fun p hp j hj => lt_of_lt_of_le (h.old p hp j hj) hle⟩

/-- A rewrite that has not begun has written nothing. -/
theorem Wf.ofJob_eq_nil (h : l.Wf jobs) : l.ofJob jobs = [] := by
  rw [ofJob, filter_eq_nil_iff]
  intro p hp hj
  exact absurd (h.old p hp jobs (of_decide_eq_true hj)) (lt_irrefl _)

@[simp] theorem draw_ofJob : (l.draw o).ofJob j = l.ofJob j := rfl

theorem add_ofJob_of_ne {p : Piece α} (hp : p.job ≠ some j) : (l.add [p]).ofJob j = l.ofJob j := by
  rw [ofJob, add, filter_append, filter_singleton, decide_eq_false hp]
  exact append_nil _

theorem add_ofJob {p : Piece α} (hp : p.job = some j) : (l.add [p]).ofJob j = l.ofJob j ++ [p] := by
  rw [ofJob, add, filter_append, filter_singleton, decide_eq_true hp]
  rfl

end Ledger

/-! ## Recorded runs -/

/-- In the order of their numbers, the pieces hold rows in order. -/
structure IsRun (le : α → α → Bool) (ps : List (Piece α)) : Prop where
  numbers : ps.Pairwise fun p q => p.number < q.number
  rows : (ps.flatMap (·.rows)).Pairwise fun a b => le a b = true

/-- The mark covers ids of its rewrite only, and the rewrite's groups are a run. -/
structure Marked (le : Order → α → α → Bool) (l : Ledger α) (jobs : ℕ) (m : Mark) : Prop where
  old : m.job < jobs
  range : ∀ n, m.sortedFrom ≤ n → n ≤ m.sortedThrough → l.owner n = some (.job m.job)
  run : IsRun (le m.order) (l.ofJob m.job)

variable {le : Order → α → α → Bool} {l : Ledger α} {jobs : ℕ} {m : Mark}

theorem Marked.draw (h : Marked le l jobs m) (hl : l.Wf jobs) (o : Owner) :
    Marked le (l.draw o) jobs m where
  old := h.old
  range n hfrom hthrough := by
    have hn := h.range n hfrom hthrough
    rw [hl.draw_owner (by rw [hn]; nofun), hn]
  run := h.run

/-- A group that the rewrite of the mark did not write. -/
theorem Marked.add (h : Marked le l jobs m) {p : Piece α} (hp : p.job ≠ some m.job) :
    Marked le (l.add [p]) jobs m where
  old := h.old
  range := h.range
  run := by
    rw [Ledger.add_ofJob_of_ne hp]
    exact h.run

theorem Marked.mono (h : Marked le l jobs m) {jobs' : ℕ} (hle : jobs ≤ jobs') :
    Marked le l jobs' m :=
  ⟨lt_of_lt_of_le h.old hle, h.range, h.run⟩

/-! ## The rewrite under way -/

/-- The rows in the rewrite's buffer. -/
def Writer.buffered (w : Writer α) : List α := (w.state.stripe.map (·.rows)).getD []

/-- A rewrite that still has to write `rest`: what it has written, buffered and not yet
written is in order, and it knows its ids from those its transaction drew before. -/
structure Writing (le : α → α → Bool) (l : Ledger α) (j : ℕ) (rest : List α) (w : Writer α)
    (stripeMark : ℕ) : Prop where
  numbers : (l.ofJob j).Pairwise fun p q => p.number < q.number
  rows : ((l.ofJob j).flatMap (·.rows) ++ w.buffered ++ rest).Pairwise fun a b => le a b = true
  above : ∀ st ∈ w.state.stripe, ∀ p ∈ l.ofJob j, p.number < st.stripeId
  stripe : ∀ st ∈ w.state.stripe, ∃ o, l.owner st.stripeId = some o ∧ ∀ j', o = .job j' → j' = j
  mark_le : stripeMark ≤ w.stripeIds.length
  ids : ∀ i ∈ w.stripeIds.drop stripeMark, l.owner i = some (.job j)
  proj : ∀ i ∈ w.projIds.flatten, l.owner i = some (.job j) ∨
    l.owner i ≠ none ∧ ∀ k ∈ w.stripeIds.drop stripeMark, i < k

namespace Writing

variable {r : α → α → Bool} {j stripeMark : ℕ} {rest : List α} {w : Writer α}

/-- Somebody draws an id. -/
theorem draw (h : Writing r l j rest w stripeMark) (hl : l.Wf jobs) (o : Owner) :
    Writing r (l.draw o) j rest w stripeMark :=
  { h with
    stripe st hst := by
      obtain ⟨o', ho', hj⟩ := h.stripe st hst
      exact ⟨o', by rw [hl.draw_owner (by rw [ho']; nofun), ho'], hj⟩
    ids i hi := by
      rw [hl.draw_owner (by rw [h.ids i hi]; nofun), h.ids i hi]
    proj i hi := by
      rcases h.proj i hi with hi | ⟨hi, hlt⟩
      · left
        rw [hl.draw_owner (by rw [hi]; nofun), hi]
      · right
        exact ⟨by rwa [hl.draw_owner hi], hlt⟩ }

/-- Somebody else writes a row group. -/
theorem add (h : Writing r l j rest w stripeMark) {p : Piece α} (hp : p.job ≠ some j) :
    Writing r (l.add [p]) j rest w stripeMark :=
  { h with
    numbers := by
      rw [Ledger.add_ofJob_of_ne hp]
      exact h.numbers
    rows := by
      rw [Ledger.add_ofJob_of_ne hp]
      exact h.rows
    above := by
      rw [Ledger.add_ofJob_of_ne hp]
      exact h.above }

/-- The rewrite reserves a stripe. -/
theorem reserve (h : Writing r l j rest w stripeMark) (hl : l.Wf jobs)
    (hnone : w.state.stripe = none) (first : ℕ) :
    Writing r (l.draw (.job j)) j rest { w with
        state := { w.state with stripe := some ⟨l.next, first, []⟩ }
        stripeIds := w.stripeIds ++ [l.next] } stripeMark where
  numbers := h.numbers
  rows := by
    have hrows := h.rows
    rw [Writer.buffered, hnone] at hrows
    exact hrows
  above st hst p hp := by
    cases hst
    exact hl.lt_next (hl.owned p (mem_filter.mp hp).1)
  stripe st hst := by
    cases hst
    exact ⟨.job j, Ledger.draw_owner_next, fun j' hj' => (Owner.job.inj hj').symm⟩
  mark_le := by
    have hle := h.mark_le
    simp only [length_append, length_singleton]
    omega
  ids i hi := by
    rw [drop_append_of_le_length h.mark_le] at hi
    rcases mem_append.mp hi with hi | hi
    · rw [hl.draw_owner (by rw [h.ids i hi]; nofun), h.ids i hi]
    · rw [mem_singleton.mp hi]
      exact Ledger.draw_owner_next
  proj i hi := by
    rcases (h.draw hl (.job j)).proj i hi with hi | ⟨howned, hlt⟩
    · exact .inl hi
    · -- an id drawn before the rewrite is below every id drawn by it
      have hi' : l.owner i ≠ none := by
        rcases h.proj i hi with hi | ⟨hi, _⟩
        · rw [hi]
          nofun
        · exact hi
      refine .inr ⟨howned, fun k hk => ?_⟩
      rw [drop_append_of_le_length h.mark_le] at hk
      rcases mem_append.mp hk with hk | hk
      · exact hlt k hk
      · rw [mem_singleton.mp hk]
        exact hl.lt_next hi'

/-- The next row goes into the stripe. -/
theorem buffer {row : α} {st : Stripe α} (h : Writing r l j (row :: rest) w stripeMark)
    (hst : w.state.stripe = some st) :
    Writing r l j rest { w with state := bufferRow w.state st row } stripeMark :=
  { h with
    rows := by
      have hrows := h.rows
      rw [Writer.buffered, hst] at hrows
      simpa [Writer.buffered, bufferRow] using hrows
    above st' hst' p hp := by
      cases hst'
      exact h.above st hst p hp
    stripe st' hst' := by
      cases hst'
      exact h.stripe st hst }

/-- The stripe is written as a row group. -/
theorem flush {st : Stripe α} (h : Writing r l j rest w stripeMark)
    (hst : w.state.stripe = some st) :
    Writing r (l.add [⟨st.stripeId, st.rows, some j⟩]) j rest
      { w with state := w.state.resetStripe } stripeMark where
  numbers := by
    rw [Ledger.add_ofJob rfl, pairwise_append]
    refine ⟨h.numbers, pairwise_singleton _ _, ?_⟩
    intro p hp q hq
    rw [mem_singleton.mp hq]
    exact h.above st hst p hp
  rows := by
    have hrows := h.rows
    rw [Writer.buffered, hst] at hrows
    rw [Ledger.add_ofJob rfl]
    simpa [Writer.buffered, WriteState.resetStripe] using hrows
  above _ hst' := nomatch hst'
  stripe _ hst' := nomatch hst'
  mark_le := h.mark_le
  ids := h.ids
  proj := h.proj

theorem mem_flatten_modify {ids : List (List ℕ)} {p n i : ℕ}
    (hi : i ∈ (ids.modify p fun is => is ++ [n]).flatten) : i ∈ ids.flatten ∨ i = n := by
  obtain ⟨is, his, hi⟩ := mem_flatten.mp hi
  obtain ⟨k, hk⟩ := mem_iff_getElem?.mp his
  rw [getElem?_modify] at hk
  obtain ⟨old, hold, rfl⟩ := Option.map_eq_some_iff.mp hk
  split at hi
  · rcases mem_append.mp hi with hi | hi
    · exact .inl (mem_flatten.mpr ⟨old, mem_of_getElem? hold, hi⟩)
    · exact .inr (mem_singleton.mp hi)
  · exact .inl (mem_flatten.mpr ⟨old, mem_of_getElem? hold, hi⟩)

/-- A projection of the rewrite draws an id. -/
theorem projReserve (h : Writing r l j rest w stripeMark) (hl : l.Wf jobs) (p : ℕ) :
    Writing r (l.draw (.job j)) j rest
      { w with projIds := w.projIds.modify p fun ids => ids ++ [l.next] } stripeMark :=
  { h with
    stripe := (h.draw hl (.job j)).stripe
    ids := (h.draw hl (.job j)).ids
    proj i hi := by
      rcases mem_flatten_modify hi with hi | rfl
      · exact (h.draw hl (.job j)).proj i hi
      · exact .inl Ledger.draw_owner_next }

end Writing

/-! ## What is recorded -/

theorem mem_of_le_runEnd {e n : ℕ} {is : List ℕ} (hle : e ≤ n) (hn : n ≤ runEnd e is) :
    n ∈ e :: is := by
  induction is generalizing e with
  | nil => exact mem_singleton.mpr (le_antisymm hn hle)
  | cons i is ih =>
    by_cases heq : n = e
    · exact mem_cons.mpr (.inl heq)
    · refine mem_cons_of_mem e ?_
      rw [runEnd] at hn
      split at hn
      · exact absurd (le_antisymm hn hle) heq
      · next hi =>
        exact ih (by omega) hn

theorem mem_sortIds {n : ℕ} {ids : List ℕ} : n ∈ sortIds ids ↔ n ∈ ids :=
  mem_insertionSort _

/-- The run recorded by the online recluster is made of ids it drew. -/
theorem Writing.owner_of_extent {r : α → α → Bool} {j stripeMark : ℕ} {rest : List α}
    {w : Writer α} (h : Writing r l j rest w stripeMark) {first last n : ℕ}
    (he : recordOnlineSortedExtent w stripeMark = some (first, last))
    (hfirst : first ≤ n) (hlast : n ≤ last) : l.owner n = some (.job j) := by
  unfold recordOnlineSortedExtent at he
  split at he
  · cases he
  · next lo ours hours =>
    have hids : ∀ i ∈ lo :: ours, i ∈ w.stripeIds.drop stripeMark := by
      intro i hi
      rwa [← hours, mem_sortIds] at hi
    dsimp only at he
    split at he
    · cases he
    · next a more hmerged =>
      obtain ⟨rfl, rfl⟩ := Prod.mk.inj (Option.some.inj he)
      have hn := mem_of_le_runEnd hfirst hlast
      rw [← hmerged, mem_sortIds, mem_append] at hn
      rcases hn with hn | hn
      · exact h.ids n (hids n hn)
      · obtain ⟨hn, hlo⟩ := mem_filter.mp hn
        rcases h.proj n hn with hown | ⟨_, hlt⟩
        · exact hown
        · -- drawn before the rewrite, so below its first id
          have hlow := hlt lo (hids lo mem_cons_self)
          exact absurd (of_decide_eq_true hlo) (Nat.not_le_of_lt hlow)

theorem foldl_mem {f : ℕ → ℕ → ℕ} (hf : ∀ a b, f a b = a ∨ f a b = b) (ns : List ℕ) (n : ℕ) :
    ns.foldl f n ∈ n :: ns := by
  induction ns generalizing n with
  | nil => exact mem_cons_self
  | cons a ns ih =>
    rw [foldl_cons]
    rcases hf n a with h | h
    · rw [h]
      rcases mem_cons.mp (ih n) with hn | hn
      · exact mem_cons.mpr (.inl hn)
      · exact mem_cons_of_mem _ (mem_cons_of_mem _ hn)
    · rw [h]
      exact mem_cons_of_mem _ (ih a)

/-- The ends of the run recorded by an eager rewrite are numbers of groups. -/
theorem mem_of_recordSortedExtent {groups : List (Group α)} {first last : ℕ}
    (he : recordSortedExtent groups = some (first, last)) :
    first ∈ groups.map (·.groupNumber) ∧ last ∈ groups.map (·.groupNumber) := by
  unfold recordSortedExtent at he
  split at he
  · cases he
  · next n ns hns =>
    obtain ⟨rfl, rfl⟩ := Prod.mk.inj (Option.some.inj he)
    rw [hns]
    exact ⟨foldl_mem (fun a b => by omega) ns n, foldl_mem (fun a b => by omega) ns n⟩

end PgColumnar.Sorted
