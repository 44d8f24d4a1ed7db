import Mathlib.Init

/-!
# Runs of a guarded step function

A system is a step function that may refuse an action.  A run takes a list of
actions and stops at the first refusal.

## Main definitions

* `run` — actions taken one after another; `AllSteps` is a condition on each.

## Main results

* `run_invariant` — what a step keeps, a run keeps.
-/

namespace Run

variable {σ α : Type*}

/-- Take the actions one after another. -/
def run (step : σ → α → Option σ) : σ → List α → Option σ
  | s, [] => some s
  | s, a :: as => (step s a).bind fun s' => run step s' as

/-- Every step of the run is taken in a state that meets the condition. -/
def AllSteps (step : σ → α → Option σ) (ok : σ → α → Prop) : σ → List α → Prop
  | _, [] => True
  | s, a :: as => ok s a ∧ ∀ s', step s a = some s' → AllSteps step ok s' as

variable {step : σ → α → Option σ}

instance decidableAllSteps {ok : σ → α → Prop} [∀ s a, Decidable (ok s a)] :
    ∀ s as, Decidable (AllSteps step ok s as)
  | _, [] => isTrue trivial
  | s, a :: as =>
    match h : step s a with
    | none => decidable_of_iff (ok s a)
        ⟨fun ho => ⟨ho, fun s' hs => by rw [h] at hs; cases hs⟩, fun ho => ho.1⟩
    | some t =>
      have : Decidable (AllSteps step ok t as) := decidableAllSteps t as
      decidable_of_iff (ok s a ∧ AllSteps step ok t as)
        ⟨fun ho => ⟨ho.1, fun s' hs => by rw [h] at hs; cases hs; exact ho.2⟩,
          fun ho => ⟨ho.1, ho.2 t h⟩⟩

variable {as : List α} {s s' : σ}

theorem run_cons {a : α} :
    run step s (a :: as) = some s' ↔ ∃ t, step s a = some t ∧ run step t as = some s' := by
  simp only [run]
  exact Option.bind_eq_some_iff

theorem run_invariant_of {P : σ → Prop} {ok : σ → α → Prop}
    (hstep : ∀ s a s', P s → ok s a → step s a = some s' → P s')
    (hs : P s) (hok : AllSteps step ok s as) (h : run step s as = some s') : P s' := by
  induction as generalizing s with
  | nil =>
    cases h
    exact hs
  | cons a as ih =>
    obtain ⟨t, ht, hrun⟩ := run_cons.mp h
    exact ih (hstep s a t hs hok.1 ht) (hok.2 t ht) hrun

theorem allSteps_true (s : σ) (as : List α) : AllSteps step (fun _ _ => True) s as := by
  induction as generalizing s with
  | nil => trivial
  | cons a as ih => exact ⟨trivial, fun s' _ => ih s'⟩

theorem run_invariant {P : σ → Prop} (hstep : ∀ s a s', P s → step s a = some s' → P s')
    (hs : P s) (h : run step s as = some s') : P s' :=
  run_invariant_of (fun s a s' hs _ => hstep s a s' hs) hs (allSteps_true s as) h

/-- If the actions kept are matched by the second system and the others do not concern it,
the second system follows the run without the others. -/
theorem run_filter {R : σ → σ → Prop} {ok : σ → α → Prop} (keep : α → Bool)
    (hkeep : ∀ s s₀ a s', R s s₀ → ok s a → keep a = true → step s a = some s' →
      ∃ s₀', step s₀ a = some s₀' ∧ R s' s₀')
    (hskip : ∀ s s₀ a s', R s s₀ → ok s a → keep a = false → step s a = some s' → R s' s₀)
    {s₀ : σ} (hR : R s s₀) (hok : AllSteps step ok s as) (h : run step s as = some s') :
    ∃ s₀', run step s₀ (as.filter keep) = some s₀' ∧ R s' s₀' := by
  induction as generalizing s s₀ with
  | nil =>
    cases h
    exact ⟨s₀, rfl, hR⟩
  | cons a as ih =>
    obtain ⟨t, ht, hrun⟩ := run_cons.mp h
    cases hk : keep a with
    | true =>
      obtain ⟨t₀, ht₀, hRt⟩ := hkeep s s₀ a t hR hok.1 hk ht
      obtain ⟨s₀', hrun₀, hR'⟩ := ih hRt (hok.2 t ht) hrun
      refine ⟨s₀', ?_, hR'⟩
      rw [List.filter_cons_of_pos hk]
      exact run_cons.mpr ⟨t₀, ht₀, hrun₀⟩
    | false =>
      rw [List.filter_cons_of_neg (by simp [hk])]
      exact ih (hskip s s₀ a t hR hok.1 hk ht) (hok.2 t ht) hrun

end Run
