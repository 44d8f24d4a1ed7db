import Mathlib.Data.List.Forall2

/-!
# Mapping a computation that may fail over a list

The results stand in the list in the place of what they are results of.
-/

namespace MapM

open List

variable {α β ε : Type} {l : List α} {l' : List β}

/-- For any monad whose values can be inverted. -/
theorem ok_mapM_iff {m : Type → Type} [Monad m] [LawfulMonad m] {ok : ∀ {γ : Type}, m γ → γ → Prop}
    (hpure : ∀ {γ : Type} (a b : γ), ok (pure a) b ↔ a = b)
    (hbind : ∀ {γ δ : Type} (x : m γ) (f : γ → m δ) b, ok (x >>= f) b ↔ ∃ a, ok x a ∧ ok (f a) b)
    {f : α → m β} : ok (l.mapM f) l' ↔ Forall₂ (fun a b => ok (f a) b) l l' := by
  induction l generalizing l' with
  | nil => rw [mapM_nil, hpure, forall₂_nil_left_iff, eq_comm]
  | cons a l ih =>
    rw [mapM_cons, forall₂_cons_left_iff, hbind]
    simp only [hbind, hpure, ih]
    exact ⟨fun ⟨b, hb, bs, hbs, h⟩ => ⟨b, bs, hb, hbs, h.symm⟩,
      fun ⟨b, bs, hb, hbs, h⟩ => ⟨b, hb, bs, hbs, h.symm⟩⟩

theorem eq_some_iff {f : α → Option β} :
    l.mapM f = some l' ↔ Forall₂ (fun a b => f a = some b) l l' :=
  @ok_mapM_iff _ _ _ _ Option _ _ (fun x a => x = some a) (fun _ _ => Option.some_inj)
    (fun _ _ _ => Option.bind_eq_some_iff) f

theorem eq_ok_iff {f : α → Except ε β} :
    l.mapM f = .ok l' ↔ Forall₂ (fun a b => f a = .ok b) l l' := by
  refine @ok_mapM_iff _ _ _ _ (Except ε) _ _ (fun x a => x = .ok a) (fun a b => ?_)
    (fun x f b => ?_) f
  · simp [pure, Except.pure]
  · cases x <;> simp [bind, Except.bind]

theorem exists_of_mem {f : α → Except ε β} (h : l.mapM f = .ok l') {a : α} (ha : a ∈ l) :
    ∃ b ∈ l', f a = .ok b := by
  have hall := eq_ok_iff.mp h
  induction hall with
  | nil => cases ha
  | cons hab hall ih =>
    rcases mem_cons.mp ha with rfl | ha
    · exact ⟨_, mem_cons_self, hab⟩
    · obtain ⟨b, hb, heq⟩ := ih (eq_ok_iff.mpr hall) ha
      exact ⟨b, mem_cons_of_mem _ hb, heq⟩

end MapM
