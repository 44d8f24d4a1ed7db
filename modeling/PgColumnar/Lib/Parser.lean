import PgColumnar.Lib.Cursor

/-!
# Parsers over a buffer

A parser reads a buffer from a position and returns a value with the next position, or fails.

## Main definitions

* `Parses` — the bytes of a value are taken, and the value is found.
* `Safe` — on no buffer the parser fails in a bad way.

## Main results

* `Parses.bind`, `parses_many`, `Safe.bind` — both compose.
-/

namespace Cursor

open Bytes

def Parser (ε α : Type) : Type := List Byte → ℕ → Except ε (α × ℕ)

namespace Parser

variable {ε α β σ : Type}

instance : Monad (Parser ε) where
  pure a := fun _ pos => .ok (a, pos)
  bind x f := fun buf pos =>
    match x buf pos with
    | .error e => .error e
    | .ok (a, p) => f a buf p

def fail (e : ε) : Parser ε α := fun _ _ => .error e

/-- The rest of the parser may depend on how many bytes are left. -/
def withLeft (f : ℕ → Parser ε α) : Parser ε α := fun buf pos => f (buf.length - pos) buf pos

def each (f : α → Parser ε Unit) : List α → Parser ε Unit
  | [] => pure ()
  | a :: as => do
    f a
    each f as

def fold (f : σ → α → Parser ε σ) : List α → σ → Parser ε σ
  | [], s => pure s
  | a :: as, s => do
    let s ← f s a
    fold f as s

/-- The step made `n` times. -/
def many (f : σ → Parser ε σ) : ℕ → σ → Parser ε σ
  | 0, s => pure s
  | n + 1, s => do
    let s ← f s
    many f n s

theorem bind_ok {x : Parser ε α} {f : α → Parser ε β} {buf : List Byte} {pos : ℕ} {r : β × ℕ}
    (h : (x >>= f) buf pos = .ok r) : ∃ a p, x buf pos = .ok (a, p) ∧ f a buf p = .ok r := by
  have hbind : (x >>= f) buf pos =
      match x buf pos with | Except.error e => Except.error e | .ok (a, p) => f a buf p := rfl
  rw [hbind] at h
  cases hrun : x buf pos with
  | error e =>
    rw [hrun] at h
    cases h
  | ok r' =>
    rw [hrun] at h
    exact ⟨r'.1, r'.2, rfl, h⟩

/-! ### What is parsed -/

def Parses (x : Parser ε α) (bs : List Byte) (a : α) : Prop :=
  ∀ buf pos, At buf pos bs → x buf pos = .ok (a, pos + bs.length)

variable {x : Parser ε α} {f : α → Parser ε β} {as bs : List Byte} {a : α} {b : β}

theorem parses_pure (a : α) : Parses (pure a : Parser ε α) [] a := fun _ _ _ => rfl

theorem Parses.bind (hx : Parses x as a) (hf : Parses (f a) bs b) :
    Parses (x >>= f) (as ++ bs) b := by
  intro buf pos hat
  obtain ⟨ha, hb⟩ := at_append.mp hat
  show (match x buf pos with | Except.error e => Except.error e | .ok (a, p) => f a buf p) = _
  rw [hx buf pos ha]
  dsimp only
  rw [hf buf _ hb, List.length_append, Nat.add_assoc]

theorem Parses.last (hx : Parses x as a) (hf : Parses (f a) [] b) : Parses (x >>= f) as b := by
  have h := hx.bind hf
  rwa [List.append_nil] at h

theorem Parses.bind_pure (hx : Parses x as a) (g : α → β) :
    Parses (x >>= fun a => pure (g a)) as (g a) :=
  hx.last (parses_pure (g a))

theorem Parses.ite {y : Parser ε α} {a' : α} {c : Prop} [Decidable c] (hx : c → Parses x as a)
    (hy : ¬ c → Parses y as a') : Parses (if c then x else y) as (if c then a else a') := by
  split
  · next hc => exact hx hc
  · next hc => exact hy hc

theorem Parses.withLeft {g : ℕ → Parser ε α} (h : ∀ left, bs.length ≤ left → Parses (g left) bs a) :
    Parses (withLeft g) bs a := by
  intro buf pos hat
  have hle := hat.le
  exact h (buf.length - pos) (by omega) buf pos hat

/-- The bytes are the encodings of the items, one after the other. -/
inductive Sequence (R : α → List Byte → Prop) : List α → List Byte → Prop
  | nil : Sequence R [] []
  | cons {a : α} {as : List α} {bs cs : List Byte} : R a bs → Sequence R as cs →
      Sequence R (a :: as) (bs ++ cs)

variable {R : α → List Byte → Prop} {xs : List α}

theorem Sequence.imp_of_mem {S : α → List Byte → Prop} {bs : List Byte}
    (hxs : Sequence R xs bs) (h : ∀ a ∈ xs, ∀ bs, R a bs → S a bs) : Sequence S xs bs := by
  induction hxs with
  | nil => exact .nil
  | cons ha _ ih =>
    rw [List.forall_mem_cons] at h
    exact .cons (h.1 _ ha) (ih h.2)

theorem Sequence.imp {S : α → List Byte → Prop} (h : ∀ a bs, R a bs → S a bs)
    {bs : List Byte} (hxs : Sequence R xs bs) : Sequence S xs bs :=
  hxs.imp_of_mem fun a _ => h a

theorem Sequence.map {γ : Type} (g : α → γ) {bs : List Byte}
    (h : Sequence R xs bs) : Sequence (fun c bs => ∃ a, g a = c ∧ R a bs) (xs.map g) bs := by
  induction h with
  | nil => exact .nil
  | cons ha _ ih => exact .cons ⟨_, rfl, ha⟩ ih

theorem Sequence.exists_of_mem {bs : List Byte}
    (h : Sequence R xs bs) {a : α} (ha : a ∈ xs) : ∃ cs, R a cs := by
  induction h with
  | nil => cases ha
  | @cons b xs bs cs hR _ ih =>
    obtain rfl | ha := List.mem_cons.mp ha
    · exact ⟨bs, hR⟩
    · exact ih ha

theorem parses_each {g : α → Parser ε Unit}
    (hg : ∀ a bs, R a bs → Parses (g a) bs ()) {bs : List Byte} (h : Sequence R xs bs) :
    Parses (each g xs) bs () := by
  induction h with
  | nil => exact parses_pure ()
  | cons ha _ ih => exact (hg _ _ ha).bind ih

variable {g : σ → α → Parser ε σ}

/-- Each item stands for a larger one, such as a field for a field and its value. -/
theorem parses_fold {γ : Type} {R : γ → List Byte → Prop} {p : γ → α}
    {next : σ → γ → σ} (hg : ∀ s c bs, R c bs → Parses (g s (p c)) bs (next s c)) {xs : List γ}
    {bs : List Byte} (h : Sequence R xs bs) (s : σ) :
    Parses (fold g (xs.map p) s) bs (xs.foldl next s) := by
  induction h generalizing s with
  | nil => exact parses_pure s
  | cons hc _ ih => exact (hg s _ _ hc).bind (ih _)

theorem parses_many {g : σ → Parser ε σ} {next : σ → α → σ}
    (hg : ∀ s a bs, R a bs → Parses (g s) bs (next s a)) {bs : List Byte}
    (h : Sequence R xs bs) (s : σ) : Parses (many g xs.length s) bs (xs.foldl next s) := by
  induction h generalizing s with
  | nil => exact parses_pure s
  | cons ha _ ih => exact (hg s _ _ ha).bind (ih _)

/-! ### What may happen on any buffer -/

/-- At a position the parser does not fail in a bad way, and does not move back or past the end. -/
def SafeAt (bad : ε → Prop) (x : Parser ε α) (buf : List Byte) (pos : ℕ) : Prop :=
  (∀ e, x buf pos = .error e → ¬ bad e) ∧ ∀ a p, x buf pos = .ok (a, p) → pos ≤ p ∧ p ≤ buf.length

def Safe (bad : ε → Prop) (x : Parser ε α) : Prop :=
  ∀ buf pos, pos ≤ buf.length → SafeAt bad x buf pos

variable {bad : ε → Prop} {buf : List Byte} {pos : ℕ}

theorem safe_pure (a : α) : Safe bad (pure a : Parser ε α) := by
  intro buf pos hpos
  refine ⟨fun e h => ?_, fun b p h => ?_⟩
  · cases h
  · cases h
    exact ⟨le_rfl, hpos⟩

theorem safe_fail {e : ε} (h : ¬ bad e) : Safe bad (fail e : Parser ε α) := by
  intro buf pos _
  refine ⟨fun e' h' => ?_, fun b p h' => ?_⟩
  · cases h'
    exact h
  · cases h'

theorem SafeAt.bind (hx : SafeAt bad x buf pos)
    (hf : ∀ a p, x buf pos = .ok (a, p) → SafeAt bad (f a) buf p) :
    SafeAt bad (x >>= f) buf pos := by
  obtain ⟨herr, hok⟩ := hx
  have hbind : (x >>= f) buf pos =
      match x buf pos with | Except.error e => Except.error e | .ok (a, p) => f a buf p := rfl
  unfold SafeAt
  rw [hbind]
  cases hrun : x buf pos with
  | error e =>
    refine ⟨fun e' h => ?_, fun b p h => ?_⟩
    · cases h
      exact herr e hrun
    · cases h
  | ok r =>
    obtain ⟨a, q⟩ := r
    obtain ⟨hle, hq⟩ := hok a q hrun
    obtain ⟨herr', hok'⟩ := hf a q hrun
    refine ⟨herr', fun b p h => ?_⟩
    obtain ⟨hle', hp⟩ := hok' b p h
    exact ⟨hle.trans hle', hp⟩

theorem Safe.bind (hx : Safe bad x) (hf : ∀ a, Safe bad (f a)) : Safe bad (x >>= f) := by
  intro buf pos hpos
  refine (hx buf pos hpos).bind fun a p hrun => hf a buf p ?_
  exact ((hx buf pos hpos).2 a p hrun).2

theorem Safe.ite {y : Parser ε α} {c : Prop} [Decidable c] (hx : Safe bad x) (hy : Safe bad y) :
    Safe bad (if c then x else y) := by
  split
  · exact hx
  · exact hy

theorem Safe.each {g : α → Parser ε Unit} (h : ∀ a, Safe bad (g a)) (xs : List α) :
    Safe bad (each g xs) := by
  induction xs with
  | nil => exact safe_pure ()
  | cons a as ih => exact (h a).bind fun _ => ih

theorem Safe.fold (h : ∀ s a, Safe bad (g s a)) (xs : List α) (s : σ) : Safe bad (fold g xs s) := by
  induction xs generalizing s with
  | nil => exact safe_pure s
  | cons a as ih => exact (h s a).bind ih

theorem Safe.many {g : σ → Parser ε σ} (h : ∀ s, Safe bad (g s)) (n : ℕ) (s : σ) :
    Safe bad (many g n s) := by
  induction n generalizing s with
  | zero => exact safe_pure s
  | succ n ih => exact (h s).bind fun s => ih s

end Parser

end Cursor
