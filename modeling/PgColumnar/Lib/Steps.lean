import Mathlib.Data.Nat.Notation

/-!
# Computations that change a state

Rules for programs in `StateT σ (Except ε)` that keep an invariant of the state and relate the state
after them to the one before.
-/

namespace Steps

variable {ε σ α β : Type}

def KeepsAt (good : σ → Prop) (bad : ε → Prop) (R : σ → σ → Prop) (x : StateT σ (Except ε) α)
    (s : σ) : Prop :=
  (∀ e, x s = .error e → ¬ bad e) ∧ ∀ a t, x s = .ok (a, t) → good t ∧ R s t

def Keeps (good : σ → Prop) (bad : ε → Prop) (R : σ → σ → Prop)
    (x : StateT σ (Except ε) α) : Prop :=
  ∀ s, good s → KeepsAt good bad R x s

variable {good : σ → Prop} {bad : ε → Prop} {R S T : σ → σ → Prop}
  {x : StateT σ (Except ε) α} {f : α → StateT σ (Except ε) β} {s : σ}

theorem bind_run (x : StateT σ (Except ε) α) (f : α → StateT σ (Except ε) β) (s : σ) :
    (x >>= f) s = match x s with
      | .error e => .error e
      | .ok (a, t) => f a t := by
  show (x s >>= fun p => f p.1 p.2) = _
  cases x s <;> rfl

theorem keepsAt_pure (hs : good s) (hR : R s s) (a : α) :
    KeepsAt good bad R (pure a : StateT σ (Except ε) α) s := by
  refine ⟨fun e h => ?_, fun b t h => ?_⟩
  · cases h
  · cases h
    exact ⟨hs, hR⟩

theorem keeps_pure (hR : ∀ s, R s s) (a : α) : Keeps good bad R (pure a : StateT σ (Except ε) α) :=
  fun s hs => keepsAt_pure hs (hR s) a

theorem keeps_throw {e : ε} (h : ¬ bad e) : Keeps good bad R (throw e : StateT σ (Except ε) α) := by
  intro s _
  refine ⟨fun e' h' => ?_, fun a t h' => ?_⟩
  · cases h'
    exact h
  · cases h'

theorem keepsAt_ok {a : α} {t : σ} (h : x s = .ok (a, t)) (hgood : good t) (hR : R s t) :
    KeepsAt good bad R x s := by
  refine ⟨fun e h' => ?_, fun b u h' => ?_⟩
  · rw [h] at h'
    cases h'
  · rw [h] at h'
    cases h'
    exact ⟨hgood, hR⟩

theorem KeepsAt.seq (hx : KeepsAt good bad R x s)
    (hf : ∀ a t, x s = .ok (a, t) → good t → R s t → KeepsAt good bad S (f a) t)
    (hcomp : ∀ t u, R s t → S t u → T s u) : KeepsAt good bad T (x >>= f) s := by
  obtain ⟨herr, hok⟩ := hx
  unfold KeepsAt
  rw [bind_run]
  cases hrun : x s with
  | error e =>
    refine ⟨fun e' h => ?_, fun b u h => ?_⟩
    · cases h
      exact herr e hrun
    · cases h
  | ok r =>
    obtain ⟨a, t⟩ := r
    obtain ⟨hgood, hR⟩ := hok a t hrun
    obtain ⟨herr', hok'⟩ := hf a t hrun hgood hR
    refine ⟨herr', fun b u h => ?_⟩
    obtain ⟨hu, hS⟩ := hok' b u h
    exact ⟨hu, hcomp t u hR hS⟩

theorem KeepsAt.get {g : σ → StateT σ (Except ε) β} (h : KeepsAt good bad R (g s) s) :
    KeepsAt good bad R (get >>= g) s := h

theorem Keeps.seq (hx : Keeps good bad R x) (hf : ∀ a, Keeps good bad S (f a))
    (hcomp : ∀ s t u, R s t → S t u → T s u) : Keeps good bad T (x >>= f) :=
  fun s hs => (hx s hs).seq (fun a t _ ht _ => hf a t ht) (hcomp s)

theorem Keeps.bind (htrans : ∀ s t u, R s t → R t u → R s u) (hx : Keeps good bad R x)
    (hf : ∀ a, Keeps good bad R (f a)) : Keeps good bad R (x >>= f) :=
  hx.seq hf htrans

theorem Keeps.imp (h : ∀ s t, R s t → S s t) (hx : Keeps good bad R x) : Keeps good bad S x := by
  intro s hs
  obtain ⟨herr, hok⟩ := hx s hs
  refine ⟨herr, fun a t hrun => ?_⟩
  obtain ⟨hgood, hR⟩ := hok a t hrun
  exact ⟨hgood, h s t hR⟩

theorem Keeps.ite {c : Prop} [Decidable c] {y : StateT σ (Except ε) α} (hx : Keeps good bad R x)
    (hy : Keeps good bad R y) : Keeps good bad R (if c then x else y) := by
  split
  · exact hx
  · exact hy

end Steps
