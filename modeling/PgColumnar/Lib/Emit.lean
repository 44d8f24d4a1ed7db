import PgColumnar.Lib.Cursor

/-!
# Readers that collect

A decoder moves a position forward through a buffer and appends what it has read to a list.  It
may not pass `fin`, and keeps at most `cap` items.
-/

namespace Cursor

open Bytes List

theorem bind_eq_ok {ε α β : Type} {x : Except ε α} {f : α → Except ε β} {b : β} :
    (x >>= f) = .ok b ↔ ∃ a, x = .ok a ∧ f a = .ok b := by
  cases x with
  | error e | ok a => simp [bind, Except.bind]

/-- A step made `n` times. -/
def times {ε S : Type} (step : S → Except ε S) : ℕ → S → Except ε S
  | 0, s => .ok s
  | n + 1, s => do
    let s ← step s
    times step n s

section Reads

variable (buf : List Byte) (fin : ℕ)

/-- The bytes stand at the position, and the next one is behind them and not past the end. -/
def Reads (bs : List Byte) (p p' : ℕ) : Prop := At buf p bs ∧ p' = p + bs.length ∧ p' ≤ fin

variable {buf fin} {as bs : List Byte} {p p' : ℕ}

theorem Reads.le (h : Reads buf fin bs p p') : p' ≤ fin := h.2.2

theorem reads_nil (hfin : fin ≤ buf.length) (hp : p ≤ fin) : Reads buf fin [] p p' ↔ p' = p := by
  constructor
  · intro h
    exact h.2.1
  · intro h
    subst h
    have hle : p' ≤ buf.length := hp.trans hfin
    exact ⟨⟨buf.take p', buf.drop p', by simp, by simpa using hle⟩, rfl, hp⟩

theorem reads_append :
    (∃ q, Reads buf fin as p q ∧ Reads buf fin bs q p') ↔ Reads buf fin (as ++ bs) p p' := by
  unfold Reads
  rw [length_append]
  constructor
  · intro h
    obtain ⟨q, ⟨ha, rfl, hq⟩, hb, rfl, hp'⟩ := h
    exact ⟨at_append.mpr ⟨ha, hb⟩, Nat.add_assoc _ _ _, hp'⟩
  · intro h
    obtain ⟨hat, rfl, hle⟩ := h
    obtain ⟨ha, hb⟩ := at_append.mp hat
    exact ⟨_, ⟨ha, rfl, by omega⟩, hb, (Nat.add_assoc _ _ _).symm, hle⟩

end Reads

section Takes

variable {α : Type} (buf : List Byte) (fin cap : ℕ)

def Inside (s : ℕ × List α) : Prop := s.1 ≤ fin ∧ s.2.length ≤ cap

/-- From one state to the next the bytes at the position are taken and the items appended. -/
def Takes (bs : List Byte) (vs : List α) (s s' : ℕ × List α) : Prop :=
  Reads buf fin bs s.1 s'.1 ∧ s'.2 = s.2 ++ vs ∧ s'.2.length ≤ cap

variable {buf fin cap} {as bs : List Byte} {us vs : List α} {s s' : ℕ × List α}

theorem Takes.inside (h : Takes buf fin cap bs vs s s') : Inside fin cap s' := ⟨h.1.le, h.2.2⟩

theorem takes_nil (hfin : fin ≤ buf.length) (hs : Inside fin cap s) :
    Takes buf fin cap [] [] s s' ↔ s' = s := by
  unfold Takes
  rw [reads_nil hfin hs.1, append_nil]
  constructor
  · intro h
    exact Prod.ext h.1 h.2.1
  · intro h
    subst h
    exact ⟨rfl, rfl, hs.2⟩

theorem takes_append : (∃ t, Takes buf fin cap as us s t ∧ Takes buf fin cap bs vs t s') ↔
      Takes buf fin cap (as ++ bs) (us ++ vs) s s' := by
  unfold Takes
  constructor
  · intro h
    obtain ⟨t, ⟨ha, htvs, -⟩, hb, hvs, hlen⟩ := h
    rw [htvs, append_assoc] at hvs
    exact ⟨reads_append.mp ⟨t.1, ha, hb⟩, hvs, hlen⟩
  · intro h
    obtain ⟨hreads, hvs, hlen⟩ := h
    obtain ⟨q, ha, hb⟩ := reads_append.mpr hreads
    have hle : (s.2 ++ us).length ≤ cap := by
      rw [hvs] at hlen
      simp only [length_append] at hlen ⊢
      omega
    exact ⟨(q, s.2 ++ us), ⟨ha, rfl, hle⟩, hb, by rw [hvs, append_assoc], hlen⟩

end Takes

section Decodes

variable {ε α X : Type} (buf : List Byte) (fin cap : ℕ) (fault : ε)

/-- The step succeeds exactly by taking the encoding of an item that fits, and otherwise fails
without a fault. -/
def Decodes (fits : X → Prop) (enc : X → List Byte) (vals : X → List α)
    (step : ℕ × List α → Except ε (ℕ × List α)) : Prop :=
  ∀ s, Inside fin cap s → step s ≠ .error fault ∧
    ∀ s', step s = .ok s' ↔ ∃ x, fits x ∧ Takes buf fin cap (enc x) (vals x) s s'

variable {buf fin cap fault} {fits : X → Prop} {enc : X → List Byte} {vals : X → List α}
  {step : ℕ × List α → Except ε (ℕ × List α)}

theorem bind_ne_fault {β γ : Type} {x : Except ε β} {f : β → Except ε γ} (hx : x ≠ .error fault)
    (hf : ∀ b, x = .ok b → f b ≠ .error fault) : (x >>= f) ≠ .error fault := by
  cases x with
  | error e => exact fun h => hx (by injection h with h; rw [h])
  | ok b => exact hf b rfl

theorem Decodes.times (hfin : fin ≤ buf.length) (h : Decodes buf fin cap fault fits enc vals step)
    (n : ℕ) :
    Decodes buf fin cap fault (fun xs : List X => xs.length = n ∧ ∀ x ∈ xs, fits x)
      (fun xs => xs.flatMap enc) (fun xs => xs.flatMap vals) (times step n) := by
  induction n with
  | zero =>
    intro s hs
    refine ⟨by simp [Cursor.times], fun s' => ?_⟩
    constructor
    · intro hok
      cases hok
      exact ⟨[], by simp, (takes_nil hfin hs).mpr rfl⟩
    · intro hex
      obtain ⟨xs, ⟨hlen, -⟩, htakes⟩ := hex
      rw [length_eq_zero_iff.mp hlen] at htakes
      rw [(takes_nil hfin hs).mp htakes]
      rfl
  | succ n ih =>
    intro s hs
    obtain ⟨hfault, hstep⟩ := h s hs
    have hnext : ∀ t, step s = .ok t → Inside fin cap t := by
      intro t ht
      obtain ⟨x, -, htakes⟩ := (hstep t).mp ht
      exact htakes.inside
    refine ⟨bind_ne_fault hfault fun t ht => (ih t (hnext t ht)).1, fun s' => ?_⟩
    rw [Cursor.times, bind_eq_ok]
    constructor
    · intro hex
      obtain ⟨t, ht, hrest⟩ := hex
      obtain ⟨x, hx, htakes⟩ := (hstep t).mp ht
      obtain ⟨xs, ⟨hlen, hxs⟩, htakes'⟩ := ((ih t (hnext t ht)).2 s').mp hrest
      refine ⟨x :: xs, ⟨by simp [hlen], by simpa using ⟨hx, hxs⟩⟩, ?_⟩
      exact takes_append.mp ⟨t, htakes, htakes'⟩
    · intro hex
      obtain ⟨xs, ⟨hlen, hxs⟩, htakes⟩ := hex
      obtain ⟨x, xs, rfl⟩ := exists_cons_of_length_eq_add_one hlen
      obtain ⟨t, htakes, htakes'⟩ := takes_append.mpr htakes
      have ht := (hstep t).mpr ⟨x, hxs x mem_cons_self, htakes⟩
      refine ⟨t, ht, ((ih t (hnext t ht)).2 s').mpr ⟨xs, ⟨by simpa using hlen, ?_⟩, htakes'⟩⟩
      exact fun y hy => hxs y (mem_cons_of_mem _ hy)

end Decodes

end Cursor
