import Mathlib.Data.List.Dedup
import Mathlib.Logic.Function.Basic
import Mathlib.Logic.Relation
import Mathlib.Order.RelClasses
import PgColumnar.Lib.Run

/-!
# Locks taken in one order

Threads take exclusive locks, each in a sequence of its own, and keep them until they end.  If all
sequences ascend in one order of the locks, no threads wait for each other in a cycle.

## Main definitions

* `State`, `step` — threads with the locks taken and pending.

## Main results

* `not_cycle` — with one order nobody waits in a cycle.
-/

namespace LockOrder

open Relation List Function

variable {T K : Type}

/-- What each thread has taken and has still to take, and who holds a lock. -/
structure State (T K : Type) where
  taken : T → List K
  pending : T → List K
  holder : K → Option T

inductive Action (T : Type)
  | acquire (t : T)
  | finish (t : T)

def start (seq : T → List K) : State T K := ⟨fun _ => [], seq, fun _ => none⟩

/-- A thread waits for the holder of the lock that it needs next. -/
def Waits (s : State T K) (t u : T) : Prop :=
  ∃ k, (s.pending t).head? = some k ∧ s.holder k = some u ∧ u ≠ t

section Step

variable [DecidableEq T] [DecidableEq K]

/-- The next lock is taken if nobody else holds it.  At its end a thread gives up all its locks. -/
def step (s : State T K) : Action T → Option (State T K)
  | .acquire t =>
    match s.pending t with
    | [] => none
    | k :: ks =>
      if s.holder k = none ∨ s.holder k = some t then
        some ⟨update s.taken t (s.taken t ++ [k]), update s.pending t ks,
          update s.holder k (some t)⟩
      else none
  | .finish t =>
    some ⟨update s.taken t [], update s.pending t [],
      fun k => if s.holder k = some t then none else s.holder k⟩

end Step

variable {lt : K → K → Prop}

/-- A sequence of locks that ascends but for repeats. -/
def Ascending (lt : K → K → Prop) (ks : List K) : Prop := ks.Pairwise fun a b => a = b ∨ lt a b

/-- Who holds a lock has taken it, and what is taken and what is pending ascend. -/
structure Inv (lt : K → K → Prop) (s : State T K) : Prop where
  held : ∀ k t, s.holder k = some t → k ∈ s.taken t
  ascending : ∀ t, Ascending lt (s.taken t ++ s.pending t)

theorem Inv.start {seq : T → List K} (h : ∀ t, Ascending lt (seq t)) : Inv lt (start seq) where
  held _ _ := nofun
  ascending := h

variable {s : State T K}

theorem Inv.step [DecidableEq T] [DecidableEq K] {s' : State T K} {a : Action T} (hi : Inv lt s)
    (h : step s a = some s') : Inv lt s' := by
  cases a with
  | acquire t =>
    unfold LockOrder.step at h
    dsimp only at h
    split at h
    · cases h
    · next k ks hpending =>
      split_ifs at h
      cases h
      constructor
      · intro k' t' hholder
        dsimp only at hholder ⊢
        by_cases hk : k' = k
        · rw [hk, update_self, Option.some.injEq] at hholder
          rw [hk, ← hholder, update_self]
          exact mem_append_right _ (mem_singleton_self k)
        · rw [update_of_ne hk] at hholder
          have hmem := hi.held k' t' hholder
          by_cases ht : t' = t
          · rw [ht] at hmem ⊢
            rw [update_self]
            exact mem_append_left _ hmem
          · rwa [update_of_ne ht]
      · intro t'
        dsimp only
        by_cases ht : t' = t
        · have hall := hi.ascending t
          rw [hpending] at hall
          rw [ht, update_self, update_self, append_assoc]
          exact hall
        · rw [update_of_ne ht, update_of_ne ht]
          exact hi.ascending t'
  | finish t =>
    cases h
    constructor
    · intro k' t' hholder
      dsimp only at hholder ⊢
      split_ifs at hholder with hk
      have ht : t' ≠ t := fun ht => hk (ht ▸ hholder)
      rw [update_of_ne ht]
      exact hi.held k' t' hholder
    · intro t'
      dsimp only
      by_cases ht : t' = t
      · rw [ht, update_self, update_self]
        exact List.Pairwise.nil
      · rw [update_of_ne ht, update_of_ne ht]
        exact hi.ascending t'

/-- Who is waited for and waits itself needs a later lock. -/
theorem Inv.lt_of_waits (hi : Inv lt s) {u w : T} {k k' : K}
    (hheld : s.holder k = some u) (hnext : (s.pending u).head? = some k')
    (hw : s.holder k' = some w)
    (hne : w ≠ u) : lt k k' := by
  obtain ⟨ks, hks⟩ := head?_eq_some_iff.mp hnext
  have hall := hi.ascending u
  rw [hks] at hall
  obtain heq | hlt := (pairwise_append.mp hall).2.2 k (hi.held k u hheld) k' mem_cons_self
  · rw [heq, hw, Option.some.injEq] at hheld
    exact absurd hheld hne
  · exact hlt

/-- Along a chain of threads that wait the locks they need ascend. -/
theorem Inv.lt_of_chain [IsTrans K lt] (hi : Inv lt s) {t u w : T} {k k' : K}
    (hc : TransGen (Waits s) t u) (ht : (s.pending t).head? = some k)
    (hnext : (s.pending u).head? = some k') (hw : s.holder k' = some w) (hne : w ≠ u) :
    lt k k' := by
  induction hc generalizing k' w with
  | single hwait =>
    obtain ⟨k₀, hk₀, hheld, -⟩ := hwait
    rw [ht, Option.some.injEq] at hk₀
    exact hi.lt_of_waits (hk₀ ▸ hheld) hnext hw hne
  | tail _ hwait ih =>
    obtain ⟨k₁, hk₁, hheld, hne₁⟩ := hwait
    exact trans_of lt (ih hk₁ hheld hne₁) (hi.lt_of_waits hheld hnext hw hne)

theorem Inv.not_cycle [IsStrictOrder K lt] (hi : Inv lt s) (t : T) : ¬ TransGen (Waits s) t t := by
  intro hc
  obtain ⟨u, hwait, -⟩ := TransGen.head'_iff.mp hc
  obtain ⟨k, hk, hheld, hne⟩ := hwait
  exact irrefl_of lt k (hi.lt_of_chain hc hk hk hheld hne)

/-- **Threads that take locks in one order do not wait in a cycle.** -/
theorem not_cycle {seq : T → List K} [DecidableEq T] [DecidableEq K] [IsStrictOrder K lt]
    (h : ∀ t, Ascending lt (seq t)) {as : List (Action T)}
    (hrun : Run.run step (start seq) as = some s) (t : T) : ¬ TransGen (Waits s) t t :=
  (Run.run_invariant (fun _ _ _ hi hs => hi.step hs) (Inv.start h) hrun).not_cycle t

/-- Without repeats the sequence ascends strictly. -/
theorem Ascending.dedup [DecidableEq K] {ks : List K} (h : Ascending lt ks) :
    ks.dedup.Pairwise lt := by
  have hweak := List.Pairwise.sublist (dedup_sublist ks) h
  exact (hweak.and (nodup_dedup ks)).imp fun hab => hab.1.resolve_left hab.2

end LockOrder
