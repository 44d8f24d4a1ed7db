import PgColumnar.Write.Buffer

/-!
# Row numbers are given out once

A stripe reserves `stripe_row_limit` numbers from the metapage and hands them to its
rows in order.  The reservations of the write states do not overlap, and the part of
a reservation that is still free holds no number given out before, also none that
went to a row rolled back since.

## Main definitions

* `Numbering` — row numbers are given out once.

## Main results

* `reserve`, `bufferRow` — a reservation and a row keep it.
-/

namespace PgColumnar.Write

open List

variable {ρ : Type*}

/-- The stripe is not full: the flush at the limit leaves no full one behind. -/
def WriteState.Room (ws : WriteState ρ) : Prop :=
  ∀ st ∈ ws.stripe, st.rows.length < ws.stripeRowLimit.rows

/-- The reservations of two write states do not overlap. -/
def Apart (a b : WriteState ρ) : Prop :=
  ∀ sa ∈ a.stripe, ∀ sb ∈ b.stripe, sa.firstRowNumber + a.stripeRowLimit.rows ≤ sb.firstRowNumber ∨
      sb.firstRowNumber + b.stripeRowLimit.rows ≤ sa.firstRowNumber

theorem Apart.symm {a b : WriteState ρ} (h : Apart a b) : Apart b a :=
  fun sb hb sa ha => (h sa ha sb hb).symm

/-- The reservation of a write state lies below the metapage's counter, and the
part of it that is still free holds no number given out before. -/
def Reserved (next : ℕ) (used : List ℕ) (ws : WriteState ρ) : Prop :=
  ∀ st ∈ ws.stripe, st.firstRowNumber + ws.stripeRowLimit.rows ≤ next ∧
    ∀ n ∈ used, n < st.firstRowNumber + st.rows.length ∨
      st.firstRowNumber + ws.stripeRowLimit.rows ≤ n

/-- Row numbers are given out once, from reservations that do not overlap. -/
structure Numbering (first next : ℕ) (used : List ℕ) (states : List (WriteState ρ)) : Prop where
  first_le : first ≤ next
  nodup : used.Nodup
  bounds : ∀ n ∈ used, first ≤ n ∧ n < next
  base : ∀ ws ∈ states, ∀ st ∈ ws.stripe, first ≤ st.firstRowNumber
  reserved : ∀ ws ∈ states, Reserved next used ws
  apart : states.Pairwise Apart

/-- A write state that kept its stripe or lost it whole. -/
def Shrunk (ws' ws : WriteState ρ) : Prop :=
  (ws'.stripe = ws.stripe ∨ ws'.stripe = none) ∧ ws'.stripeRowLimit = ws.stripeRowLimit

variable {ws' ws : WriteState ρ}

theorem Shrunk.mem (h : Shrunk ws' ws) {st : Stripe ρ}
    (hst : st ∈ ws'.stripe) : st ∈ ws.stripe := by
  rcases h.1 with h1 | h1
  · rwa [h1] at hst
  · rw [h1] at hst
    cases hst

theorem Shrunk.room (h : Shrunk ws' ws) (hr : ws.Room) : ws'.Room := by
  intro st hst
  rw [h.2]
  exact hr st (h.mem hst)

theorem Shrunk.apart {a a' b b' : WriteState ρ} (ha : Shrunk a' a) (hb : Shrunk b' b)
    (h : Apart a b) : Apart a' b' := by
  intro sa hsa sb hsb
  rw [ha.2, hb.2]
  exact h sa (ha.mem hsa) sb (hb.mem hsb)

theorem Shrunk.reserved (h : Shrunk ws' ws) {next : ℕ} {used : List ℕ}
    (hr : Reserved next used ws) : Reserved next used ws' := by
  intro st hst
  rw [h.2]
  exact hr st (h.mem hst)

namespace Numbering

variable {first next : ℕ} {used : List ℕ} {states rest : List (WriteState ρ)}

theorem perm (h : Numbering first next used states) {states' : List (WriteState ρ)}
    (hp : states.Perm states') : Numbering first next used states' :=
  { h with
    base := fun ws hws => h.base ws (hp.mem_iff.mpr hws)
    reserved := fun ws hws => h.reserved ws (hp.mem_iff.mpr hws)
    apart := (hp.pairwise_iff fun hab => hab.symm).mp h.apart }

theorem perm_used (h : Numbering first next used states) {used' : List ℕ}
    (hp : used.Perm used') : Numbering first next used' states :=
  { h with
    nodup := hp.nodup_iff.mp h.nodup
    bounds := fun n hn => h.bounds n (hp.mem_iff.mpr hn)
    reserved := fun ws hws st hst =>
      ⟨(h.reserved ws hws st hst).1, fun n hn =>
        (h.reserved ws hws st hst).2 n (hp.mem_iff.mpr hn)⟩ }

/-- Write states may lose their stripes or go away. -/
theorem filterMap (h : Numbering first next used states) {f : WriteState ρ → Option (WriteState ρ)}
    (hf : ∀ ws ∈ states, ∀ ws' ∈ f ws, Shrunk ws' ws) :
    Numbering first next used (states.filterMap f) :=
  { h with
    base := by
      intro ws' hws' st hst
      obtain ⟨ws, hws, hfw⟩ := mem_filterMap.mp hws'
      exact h.base ws hws st ((hf ws hws ws' hfw).mem hst)
    reserved := by
      intro ws' hws'
      obtain ⟨ws, hws, hfw⟩ := mem_filterMap.mp hws'
      exact (hf ws hws ws' hfw).reserved (h.reserved ws hws)
    apart := by
      rw [pairwise_filterMap]
      exact h.apart.imp_of_mem fun ha hb hab a' ha' b' hb' =>
        (hf _ ha a' ha').apart (hf _ hb b' hb') hab }

theorem map (h : Numbering first next used states) {f : WriteState ρ → WriteState ρ}
    (hf : ∀ ws ∈ states, Shrunk (f ws) ws) : Numbering first next used (states.map f) := by
  rw [← filterMap_eq_map]
  refine h.filterMap ?_
  intro ws hws ws' hw
  cases hw
  exact hf ws hws

variable {ws : WriteState ρ}

theorem tail (h : Numbering first next used (ws :: rest)) : Numbering first next used rest :=
  { h with
    base := fun w hw => h.base w (mem_cons_of_mem _ hw)
    reserved := fun w hw => h.reserved w (mem_cons_of_mem _ hw)
    apart := (pairwise_cons.mp h.apart).2 }

/-- Put a write state in front. -/
theorem cons (h : Numbering first next used rest)
    (hb : ∀ st ∈ ws.stripe, first ≤ st.firstRowNumber) (hr : Reserved next used ws)
    (ha : ∀ b ∈ rest, Apart ws b) : Numbering first next used (ws :: rest) :=
  { h with
    base := by
      refine forall_mem_cons.mpr ⟨?_, h.base⟩
      exact hb
    reserved := by
      refine forall_mem_cons.mpr ⟨?_, h.reserved⟩
      exact hr
    apart := pairwise_cons.mpr ⟨ha, h.apart⟩ }

theorem cons_empty (h : Numbering first next used rest)
    (he : ws.stripe = none) : Numbering first next used (ws :: rest) := by
  refine h.cons ?_ ?_ ?_
  · intro st hst
    simp [he] at hst
  · intro st hst
    simp [he] at hst
  · intro b _ st hst
    simp [he] at hst

/-- A write state may lose its stripe. -/
theorem shrink {ws' : WriteState ρ} (h : Numbering first next used (ws :: rest))
    (hs : Shrunk ws' ws) : Numbering first next used (ws' :: rest) := by
  refine h.tail.cons ?_ ?_ ?_
  · intro st hst
    exact h.base ws mem_cons_self st (hs.mem hst)
  · exact hs.reserved (h.reserved ws mem_cons_self)
  · intro b hb
    exact hs.apart ⟨Or.inl rfl, rfl⟩ ((pairwise_cons.mp h.apart).1 b hb)

/-- Others may draw from the counters. -/
theorem mono (h : Numbering first next used states) {next' : ℕ} (hn : next ≤ next') :
    Numbering first next' used states :=
  { h with
    first_le := Nat.le_trans h.first_le hn
    bounds := fun n hm => ⟨(h.bounds n hm).1, Nat.lt_of_lt_of_le (h.bounds n hm).2 hn⟩
    reserved := fun ws hws st hst =>
      ⟨Nat.le_trans (h.reserved ws hws st hst).1 hn, (h.reserved ws hws st hst).2⟩ }

/-- A stripe without a reservation takes one. -/
theorem reserve (h : Numbering first next used (ws :: rest))
    {stripeId : ℕ} (limit : ℕ) (hl : ws.stripeRowLimit.rows = limit) :
    Numbering first (next + limit) used
      ({ ws with stripe := some ⟨stripeId, next, []⟩ } :: rest) := by
  refine (h.tail.mono (Nat.le_add_right next limit)).cons ?_ ?_ ?_
  · intro st hst
    cases hst
    exact h.first_le
  · intro st hst
    cases hst
    refine ⟨by simp [hl], ?_⟩
    intro n hn
    exact Or.inl (h.bounds n hn).2
  · intro b hb st hst sb hsb
    cases hst
    exact Or.inr (h.tail.reserved b hb sb hsb).1

/-- The next row of a stripe that has room gets a number nobody had. -/
theorem bufferRow {st : Stripe ρ} (row : ρ)
    (h : Numbering first next used ({ ws with stripe := some st } :: rest))
    (hroom : st.rows.length < ws.stripeRowLimit.rows) :
    Numbering first next ((st.firstRowNumber + st.rows.length) :: used)
      (bufferRow ws st row :: rest) := by
  have hres := h.reserved _ mem_cons_self st rfl
  have hbase := h.base _ mem_cons_self st rfl
  have hapart := (pairwise_cons.mp h.apart).1
  have hfresh : st.firstRowNumber + st.rows.length ∉ used := by
    intro hm
    have := hres.2 _ hm
    dsimp only at this
    omega
  have hrest : ∀ b ∈ rest, ∀ sb ∈ b.stripe,
      st.firstRowNumber + ws.stripeRowLimit.rows ≤ sb.firstRowNumber ∨
        sb.firstRowNumber + b.stripeRowLimit.rows ≤ st.firstRowNumber :=
    fun b hb sb hsb => hapart b hb st rfl sb hsb
  have hnext : st.firstRowNumber + ws.stripeRowLimit.rows ≤ next := hres.1
  -- the numbers used so far are still apart from the free part of every reservation
  have htail : Numbering first next ((st.firstRowNumber + st.rows.length) :: used) rest := by
    refine ⟨h.first_le, nodup_cons.mpr ⟨hfresh, h.nodup⟩, ?_, h.tail.base, ?_, h.tail.apart⟩
    · refine forall_mem_cons.mpr ⟨?_, h.bounds⟩
      omega
    · intro b hb sb hsb
      refine ⟨(h.tail.reserved b hb sb hsb).1, ?_⟩
      refine forall_mem_cons.mpr ⟨?_, (h.tail.reserved b hb sb hsb).2⟩
      rcases hrest b hb sb hsb with hlt | hge
      · exact Or.inl (by omega)
      · exact Or.inr (by omega)
  refine htail.cons ?_ ?_ ?_
  · intro st' hst'
    cases hst'
    exact hbase
  · intro st' hst'
    cases hst'
    refine ⟨hnext, ?_⟩
    intro n hn
    simp only [length_append, length_singleton]
    rcases mem_cons.mp hn with rfl | hn
    · exact Or.inl (by omega)
    · rcases hres.2 n hn with hlt | hge
      · exact Or.inl (by omega)
      · exact Or.inr hge
  · intro b hb st' hst' sb hsb
    cases hst'
    exact hrest b hb sb hsb

end Numbering

end PgColumnar.Write
