import Mathlib.Data.List.Basic
import Mathlib.Data.List.Perm.Basic

/-!
# Nested transactions

The open subtransactions of one transaction form a stack: each is started below
the current one, gets a number larger than any before it, and ends before its
parent does.  Effects carry the number of the subtransaction that holds them;
when it commits they pass to its parent, when it aborts they are gone.

Some effects are held twice: an owner keeps a copy while a deeper subtransaction
has them written out on its behalf.  `Held` is what stays true of such an owner
until the deeper one is resolved.

## Main definitions

* `Stack`, `push`, `pop`, `promote` — open subtransactions.
* `Journal`, `Held` — effects under them, and what holds them.
-/

namespace Nested

open List Nat

/-- The open subtransactions, innermost first, and the next free number.  Zero is
the number of no subtransaction. -/
structure Stack where
  current : ℕ
  outer : List ℕ
  next : ℕ
  sorted : (next :: current :: outer).Pairwise (· > ·)
  pos : ∀ u ∈ current :: outer, 0 < u

namespace Stack

/-- The numbers of the open subtransactions. -/
def ids (s : Stack) : List ℕ := s.current :: s.outer

/-- Only the top-level transaction is open. -/
def start : Stack := ⟨1, [], 2, by simp, by simp⟩

/-- Start a subtransaction below the current one. -/
def push (s : Stack) : Stack where
  current := s.next
  outer := s.current :: s.outer
  next := s.next + 1
  sorted := by
    have h := s.sorted
    rw [pairwise_cons]
    refine ⟨?_, h⟩
    refine forall_mem_cons.mpr ⟨?_, fun u hu => lt_succ_of_lt (rel_of_pairwise_cons h hu)⟩
    exact lt_succ_self _
  pos := by
    refine forall_mem_cons.mpr ⟨?_, s.pos⟩
    exact zero_lt_of_lt (rel_of_pairwise_cons s.sorted mem_cons_self)

/-- End the current subtransaction; the top-level transaction does not end so. -/
def pop (s : Stack) : Option Stack :=
  match h : s.outer with
  | [] => none
  | p :: rest => some ⟨p, rest, s.next, by
      have hs := s.sorted
      rw [h] at hs
      exact hs.sublist (by simp), by
      intro u hu
      exact s.pos u (mem_cons_of_mem _ (h ▸ hu))⟩

variable {u : ℕ}

theorem mem_push {s : Stack} : u ∈ s.push.ids ↔ u = s.next ∨ u ∈ s.ids := by
  simp [ids, push]

theorem current_mem (s : Stack) : s.current ∈ s.ids := by simp [ids]

theorem lt_next {s : Stack} (h : u ∈ s.ids) : u < s.next :=
  rel_of_pairwise_cons s.sorted h

theorem le_current {s : Stack} (h : u ∈ s.ids) : u ≤ s.current := by
  rcases mem_cons.mp h with rfl | h
  · exact Nat.le_refl _
  · exact Nat.le_of_lt (rel_of_pairwise_cons (pairwise_cons.mp s.sorted).2 h)

theorem pop_eq_some {s t : Stack} (h : s.pop = some t) :
    s.ids = s.current :: t.ids ∧ t.current < s.current ∧ t.next = s.next := by
  unfold pop at h
  split at h
  · cases h
  · next p rest heq =>
    cases h
    refine ⟨by simp [ids, heq], ?_, rfl⟩
    have hs := (pairwise_cons.mp s.sorted).2
    rw [heq] at hs
    exact rel_of_pairwise_cons hs mem_cons_self

theorem mem_pop {s t : Stack} (h : s.pop = some t) : u ∈ t.ids ↔ u ∈ s.ids ∧ u ≠ s.current := by
  obtain ⟨hids, -, -⟩ := pop_eq_some h
  have hs : (s.current :: t.ids).Pairwise (· > ·) := by
    rw [← hids]
    exact (pairwise_cons.mp s.sorted).2
  rw [hids]
  constructor
  · intro hu
    exact ⟨mem_cons_of_mem _ hu, Nat.ne_of_lt (rel_of_pairwise_cons hs hu)⟩
  · rintro ⟨hu, hne⟩
    exact (mem_cons.mp hu).resolve_left hne

end Stack

/-! ### Effects and the subtransactions that hold them -/

/-- Commit of `c` into `p`: what `c` held, `p` holds. -/
def promote (c p u : ℕ) : ℕ := if u = c then p else u

@[simp] theorem promote_self (c p : ℕ) : promote c p c = p := by simp [promote]

theorem promote_of_ne {c p u : ℕ} (h : u ≠ c) : promote c p u = u := by simp [promote, h]

/-- What lay at or above another still does after a commit. -/
theorem promote_le_promote {s t : Stack} (h : s.pop = some t) {u v : ℕ} (hu : u ∈ s.ids ∨ u = 0)
    (hle : u ≤ v) (hv : v ∈ s.ids) :
    promote s.current t.current u ≤ promote s.current t.current v := by
  have hcur := Stack.le_current hv
  by_cases hvc : v = s.current
  · rw [hvc, promote_self]
    by_cases huc : u = s.current
    · exact Nat.le_of_eq (by rw [huc, promote_self])
    · rw [promote_of_ne huc]
      rcases hu with hu | rfl
      · exact Stack.le_current ((Stack.mem_pop h).mpr ⟨hu, huc⟩)
      · exact zero_le _
  · rw [promote_of_ne hvc, promote_of_ne (by omega)]
    exact hle

theorem promote_mem {s t : Stack} (h : s.pop = some t) {u : ℕ} (hu : u ∈ s.ids) :
    promote s.current t.current u ∈ t.ids := by
  by_cases hc : u = s.current
  · rw [hc, promote_self]
    exact t.current_mem
  · rw [promote_of_ne hc]
    exact (Stack.mem_pop h).mpr ⟨hu, hc⟩

/-- What a transaction did: the effects with the subtransactions that hold them,
and the effects that were rolled back. -/
structure Journal (α : Type*) where
  live : List (ℕ × α)
  dead : List α

namespace Journal

variable {α : Type*}

def empty : Journal α := ⟨[], []⟩

/-- The effect `a` is done in subtransaction `u`. -/
def record (j : Journal α) (u : ℕ) (a : α) : Journal α :=
  { j with live := j.live ++ [(u, a)] }

def commit (j : Journal α) (c p : ℕ) : Journal α :=
  { j with live := j.live.map (Prod.map (promote c p) id) }

def abort (j : Journal α) (c : ℕ) : Journal α where
  live := j.live.filter (·.1 ≠ c)
  dead := j.dead ++ (j.live.filter (·.1 = c)).map (·.2)

/-- Every effect ever done, rolled back or not. -/
def all (j : Journal α) : List α := j.live.map (·.2) ++ j.dead

@[simp] theorem all_commit (j : Journal α) (c p : ℕ) : (j.commit c p).all = j.all := by
  simp [all, commit, Function.comp_def]

theorem all_abort_perm (j : Journal α) (c : ℕ) : (j.abort c).all.Perm j.all := by
  have hsplit : (j.live.filter (·.1 ≠ c) ++ j.live.filter (·.1 = c)).Perm j.live := by
    have h := filter_append_perm (fun x : ℕ × α => decide (x.1 ≠ c)) j.live
    simpa using h
  have h := hsplit.map (·.2)
  rw [map_append] at h
  simp only [all, abort]
  refine (perm_append_comm.append_left _).trans ?_
  rw [← append_assoc]
  exact h.append_right _

theorem all_record_perm (j : Journal α) (u : ℕ) (a : α) : (j.record u a).all.Perm (a :: j.all) := by
  simp only [all, record, map_append, map_cons, map_nil, append_assoc]
  exact perm_middle

end Journal

/-! ### Copies held by an owner -/

/-- An owner among the open subtransactions, and a deeper open one under which
its effects are written out. -/
structure Held (s : Stack) (owner : ℕ) (under : Option ℕ) : Prop where
  owner_mem : owner ∈ s.ids
  under_mem : ∀ u ∈ under, u ∈ s.ids
  owner_lt : ∀ u ∈ under, owner < u

namespace Held

variable {s t : Stack} {owner : ℕ} {under : Option ℕ}

theorem none (h : owner ∈ s.ids) : Held s owner none :=
  ⟨h, by simp, by simp⟩

/-- What the current subtransaction owns is written under no other. -/
theorem under_eq_none (h : Held s owner under) (hc : owner = s.current) : under = Option.none := by
  cases under with
  | none => rfl
  | some u =>
    have h1 := h.owner_lt u rfl
    have h2 := Stack.le_current (h.under_mem u rfl)
    omega

theorem push (h : Held s owner under) : Held s.push owner under :=
  ⟨Stack.mem_push.mpr (Or.inr h.owner_mem),
    fun u hu => Stack.mem_push.mpr (Or.inr (h.under_mem u hu)), h.owner_lt⟩

/-- Written out under the current subtransaction on behalf of an enclosing one. -/
theorem current (h : owner ∈ s.ids) (hc : owner ≠ s.current) : Held s owner (some s.current) := by
  have := Stack.le_current h
  refine ⟨h, ?_, ?_⟩
  · intro u hu
    cases hu
    exact s.current_mem
  · intro u hu
    cases hu
    omega

/-- With only one subtransaction open nothing is written under another. -/
theorem under_eq_none_of_outer (h : Held s owner under) (hs : s.outer = []) :
    under = Option.none := by
  have hm := h.owner_mem
  simp only [Stack.ids, hs, mem_singleton] at hm
  exact h.under_eq_none hm

end Held

end Nested
