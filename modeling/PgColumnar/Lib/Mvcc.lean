import Mathlib.Data.List.Basic
import Mathlib.Logic.Function.Basic

/-!
# Transaction ids, snapshots and the horizon

A clock hands out transaction ids in ascending order, records how each of them ended
and keeps the snapshots that readers still hold.  A snapshot sees the ids that had
committed when it was taken.  A horizon is a lower bound of everything that is still
undecided for some snapshot.

A nested transaction has an id of its own; it ends together with the ids it is nested
in, so an end takes a list of ids.

Some ids, those of lazy vacuums, may be left out of a snapshot although they are running:
all that run before the last id that has ended.

## Main definitions

* `Clock`, `Snapshot` — ids, how they ended, and the snapshots held.
* `latestBut` — a snapshot that leaves some running ids out.
* `isHorizon`, `Settled` — what no snapshot is undecided about.

## Main results

* `sees_next` — what a held snapshot sees does not change.
* `Wf.step` — a step keeps the clock well formed.
-/

namespace Mvcc

inductive Status where
  | unused
  | running
  | committed
  | aborted
  deriving DecidableEq

structure Snapshot where
  xmax : ℕ
  running : List ℕ
  deriving DecidableEq

structure Clock where
  next : ℕ
  status : ℕ → Status
  snapshots : List Snapshot

namespace Clock

def init : Clock := ⟨0, fun _ => .unused, []⟩

def running (c : Clock) : List ℕ :=
  (List.range c.next).filter fun x => c.status x = .running

def begin (c : Clock) : Clock :=
  { c with next := c.next + 1, status := Function.update c.status c.next .running }

/-- The transactions `xs` end together. -/
def finish (c : Clock) (xs : List ℕ) (st : Status) : Clock :=
  { c with status := fun x => if x ∈ xs then st else c.status x }

def latest (c : Clock) : Snapshot := ⟨c.next, c.running⟩

def takeSnapshot (c : Clock) : Clock :=
  { c with snapshots := c.snapshots ++ [c.latest] }

/-- No later id has ended. -/
def Open (c : Clock) (x : ℕ) : Prop := ∀ y < c.next, x < y → c.status y = .running

instance (c : Clock) (x : ℕ) : Decidable (c.Open x) :=
  inferInstanceAs (Decidable (∀ y < c.next, x < y → c.status y = .running))

/-- The snapshot without the ids of `lazy`, but those that would not have ended before its
bound. -/
def latestBut (c : Clock) (lazy : ℕ → Bool) : Snapshot :=
  ⟨c.next, c.running.filter fun x => !lazy x || decide (c.Open x)⟩

def takeSnapshotBut (c : Clock) (lazy : ℕ → Bool) : Clock :=
  { c with snapshots := c.snapshots ++ [c.latestBut lazy] }

/-- No running id is left out of a snapshot taken now. -/
def Lists (c : Clock) (lazy : ℕ → Bool) : Prop :=
  ∀ x ∈ c.running, lazy x = true → c.Open x

instance (c : Clock) (lazy : ℕ → Bool) : Decidable (c.Lists lazy) :=
  inferInstanceAs (Decidable (∀ x ∈ c.running, lazy x = true → c.Open x))

/-- The id is running, and to the snapshot it has ended. -/
def Missed (c : Clock) (s : Snapshot) (x : ℕ) : Prop :=
  c.status x = .running ∧ x < s.xmax ∧ x ∉ s.running

instance (c : Clock) (s : Snapshot) (x : ℕ) : Decidable (c.Missed s x) :=
  inferInstanceAs (Decidable (_ ∧ _ ∧ _))

def dropSnapshot (c : Clock) (i : ℕ) : Clock :=
  { c with snapshots := c.snapshots.eraseIdx i }

/-- The steps of a clock. -/
inductive Next (c : Clock) : Clock → Prop
  | refl : Next c c
  | begin : Next c c.begin
  | finish {xs : List ℕ} {st : Status} (hxs : ∀ x ∈ xs, c.status x = .running)
      (hst : st = .committed ∨ st = .aborted) : Next c (c.finish xs st)
  | takeSnapshot : Next c c.takeSnapshot
  | dropSnapshot (i : ℕ) : Next c (c.dropSnapshot i)

/-- Ids are used in order, and a snapshot lists what was running below its bound. -/
structure Wf (c : Clock) : Prop where
  unused : ∀ x, c.next ≤ x → c.status x = .unused
  listed : ∀ s ∈ c.snapshots, ∀ x < s.xmax, c.status x = .running → x ∈ s.running
  bound : ∀ s ∈ c.snapshots, s.xmax ≤ c.next

/-- The transaction is in the snapshot. -/
def sees (c : Clock) (s : Snapshot) (x : ℕ) : Prop :=
  c.status x = .committed ∧ x < s.xmax ∧ x ∉ s.running

instance (c : Clock) (s : Snapshot) (x : ℕ) : Decidable (c.sees s x) :=
  inferInstanceAs (Decidable (_ ∧ _ ∧ _))

/-- Nothing below `h` is undecided, for any snapshot. -/
structure IsHorizon (c : Clock) (h : ℕ) : Prop where
  next : h ≤ c.next
  running : ∀ x, c.status x = .running → h ≤ x
  snapshots : ∀ s ∈ c.snapshots, h ≤ s.xmax ∧ ∀ x ∈ s.running, h ≤ x

/-- The test behind `IsHorizon`, by the lists the clock keeps. -/
def isHorizon (c : Clock) (h : ℕ) : Bool :=
  decide (h ≤ c.next) && c.running.all (fun x => decide (h ≤ x)) &&
    c.snapshots.all fun s => decide (h ≤ s.xmax) && s.running.all fun x => decide (h ≤ x)

/-- The transaction has committed and every snapshot sees it. -/
def Settled (c : Clock) (x : ℕ) : Prop :=
  c.status x = .committed ∧ ∀ s ∈ c.snapshots, c.sees s x

variable {c c' : Clock} {h x : ℕ} {s : Snapshot}

theorem Wf.init : Clock.init.Wf :=
  ⟨fun _ _ => rfl, fun _ hs => (nomatch hs), fun _ hs => (nomatch hs)⟩

theorem Wf.lt_next (hc : c.Wf) (hx : c.status x ≠ .unused) : x < c.next :=
  Nat.lt_of_not_le fun hle => hx (hc.unused x hle)

theorem mem_running (hc : c.Wf) : x ∈ c.running ↔ c.status x = .running := by
  unfold running
  rw [List.mem_filter, List.mem_range, decide_eq_true_eq, and_iff_right_iff_imp]
  intro hx
  exact hc.lt_next (by rw [hx]; decide)

theorem begin_status_of_ne (hx : x ≠ c.next) : c.begin.status x = c.status x :=
  Function.update_of_ne hx _ _

theorem begin_status_next : c.begin.status c.next = .running :=
  Function.update_self _ _ _

theorem finish_status_of_mem {xs : List ℕ} {st : Status} (hx : x ∈ xs) :
    (c.finish xs st).status x = st :=
  if_pos hx

theorem finish_status_of_not_mem {xs : List ℕ} {st : Status} (hx : x ∉ xs) :
    (c.finish xs st).status x = c.status x :=
  if_neg hx

/-- A transaction that has ended keeps its status. -/
theorem Next.status_ended (hc : c.Wf) (hn : Next c c')
    (hx : c.status x = .committed ∨ c.status x = .aborted) : c'.status x = c.status x := by
  cases hn with
  | refl | takeSnapshot | dropSnapshot i => rfl
  | begin =>
    apply begin_status_of_ne
    rintro rfl
    rw [hc.unused _ (Nat.le_refl _)] at hx
    simp at hx
  | @finish xs st hxs _ =>
    apply finish_status_of_not_mem
    intro hmem
    rw [hxs x hmem] at hx
    simp at hx

theorem Next.committed (hc : c.Wf) (hn : Next c c') (hx : c.status x = .committed) :
    c'.status x = .committed := by
  rw [hn.status_ended hc (.inl hx), hx]

theorem Next.aborted (hc : c.Wf) (hn : Next c c') (hx : c.status x = .aborted) :
    c'.status x = .aborted := by
  rw [hn.status_ended hc (.inr hx), hx]

theorem Next.le_next (hn : Next c c') : c.next ≤ c'.next := by
  cases hn with
  | begin => exact Nat.le_succ _
  | _ => exact Nat.le_refl _

/-- What runs after a step ran before it, or is the id handed out by it. -/
theorem Next.running (hn : Next c c') (hx : c'.status x = .running) :
    c.status x = .running ∨ x = c.next := by
  cases hn with
  | begin =>
    by_cases hxn : x = c.next
    · exact .inr hxn
    · rw [begin_status_of_ne hxn] at hx
      exact .inl hx
  | @finish xs st hxs hst =>
    by_cases hmem : x ∈ xs
    · rw [finish_status_of_mem hmem] at hx
      subst hx
      simp at hst
    · rw [finish_status_of_not_mem hmem] at hx
      exact .inl hx
  | _ => exact .inl hx

/-- Only what was running commits. -/
theorem Next.of_committed (hn : Next c c') (hx : c'.status x = .committed) :
    c.status x = .committed ∨ c.status x = .running := by
  cases hn with
  | begin =>
    by_cases hxn : x = c.next
    · rw [hxn, begin_status_next] at hx
      cases hx
    · rw [begin_status_of_ne hxn] at hx
      exact .inl hx
  | @finish xs st hxs _ =>
    by_cases hmem : x ∈ xs
    · exact .inr (hxs x hmem)
    · rw [finish_status_of_not_mem hmem] at hx
      exact .inl hx
  | _ => exact .inl hx

theorem Next.used (hn : Next c c') (hx : c.status x ≠ .unused) : c'.status x ≠ .unused := by
  cases hn with
  | begin =>
    by_cases hxn : x = c.next
    · rw [hxn, begin_status_next]
      nofun
    · rw [begin_status_of_ne hxn]
      exact hx
  | @finish xs st _ hst =>
    by_cases hmem : x ∈ xs
    · rw [finish_status_of_mem hmem]
      rintro rfl
      simp at hst
    · rw [finish_status_of_not_mem hmem]
      exact hx
  | _ => exact hx

theorem Next.snapshots (hn : Next c c') (hs : s ∈ c'.snapshots) :
    s ∈ c.snapshots ∨ s = c.latest ∧ c' = c.takeSnapshot := by
  cases hn with
  | takeSnapshot =>
    rcases List.mem_append.mp hs with hs | hs
    · exact .inl hs
    · exact .inr ⟨List.mem_singleton.mp hs, rfl⟩
  | dropSnapshot i => exact .inl (List.mem_of_mem_eraseIdx hs)
  | _ => exact .inl hs

theorem Wf.step (hc : c.Wf) (hn : Next c c') : c'.Wf where
  unused x hx := by
    have hlt : c.next ≤ x := Nat.le_trans hn.le_next hx
    cases hn with
    | begin =>
      rw [begin_status_of_ne (by have : c.next + 1 ≤ x := hx; omega)]
      exact hc.unused x hlt
    | @finish xs st hxs _ =>
      rw [finish_status_of_not_mem]
      · exact hc.unused x hlt
      · intro hmem
        have hrun := hxs x hmem
        rw [hc.unused x hlt] at hrun
        cases hrun
    | _ => exact hc.unused x hlt
  listed s hs x hx hrun := by
    rcases hn.snapshots hs with hs | ⟨rfl, rfl⟩
    · rcases hn.running hrun with hrun | rfl
      · exact hc.listed s hs x hx hrun
      · exact absurd hx (Nat.not_lt_of_le (hc.bound s hs))
    · exact (mem_running hc).mpr hrun
  bound s hs := by
    rcases hn.snapshots hs with hs | ⟨rfl, rfl⟩
    · exact Nat.le_trans (hc.bound s hs) hn.le_next
    · exact Nat.le_refl _

theorem isHorizon_iff (hc : c.Wf) : c.isHorizon h = true ↔ c.IsHorizon h := by
  simp only [isHorizon, Bool.and_eq_true, decide_eq_true_eq, List.all_eq_true]
  constructor
  · rintro ⟨⟨hn, hr⟩, hs⟩
    exact ⟨hn, fun x hx => hr x ((mem_running hc).mpr hx), hs⟩
  · rintro ⟨hn, hr, hs⟩
    exact ⟨⟨hn, fun x hx => hr x ((mem_running hc).mp hx)⟩, hs⟩

theorem IsHorizon.step (hh : c.IsHorizon h) (hc : c.Wf) (hn : Next c c') : c'.IsHorizon h where
  next := Nat.le_trans hh.next hn.le_next
  running x hx := by
    rcases hn.running hx with hx | rfl
    · exact hh.running x hx
    · exact hh.next
  snapshots s hs := by
    rcases hn.snapshots hs with hs | ⟨rfl, _⟩
    · exact hh.snapshots s hs
    · exact ⟨hh.next, fun x hx => hh.running x ((mem_running hc).mp hx)⟩

theorem IsHorizon.settled (hh : c.IsHorizon h) (hx : c.status x = .committed) (hlt : x < h) :
    c.Settled x := by
  refine ⟨hx, fun s hs => ⟨hx, ?_, ?_⟩⟩
  · exact Nat.lt_of_lt_of_le hlt (hh.snapshots s hs).1
  · intro hmem
    exact absurd ((hh.snapshots s hs).2 x hmem) (Nat.not_le_of_lt hlt)

theorem sees_latest (hc : c.Wf) : c.sees c.latest x ↔ c.status x = .committed := by
  refine ⟨fun h => h.1, fun h => ⟨h, hc.lt_next (by rw [h]; decide), fun hmem => ?_⟩⟩
  rw [latest, mem_running hc, h] at hmem
  cases hmem

theorem latestBut_eq {lazy : ℕ → Bool} (h : c.Lists lazy) : c.latestBut lazy = c.latest := by
  unfold latestBut latest
  rw [List.filter_eq_self.mpr]
  intro x hx
  cases hl : lazy x with
  | false => rfl
  | true => exact decide_eq_true (h x hx hl)

theorem takeSnapshotBut_eq {lazy : ℕ → Bool} (h : c.Lists lazy) :
    c.takeSnapshotBut lazy = c.takeSnapshot := by
  rw [takeSnapshotBut, latestBut_eq h, takeSnapshot]

theorem sees_latestBut (hc : c.Wf) (lazy : ℕ → Bool) :
    c.sees (c.latestBut lazy) x ↔ c.status x = .committed := by
  refine ⟨fun h => h.1, fun h => ⟨h, hc.lt_next (by rw [h]; decide), fun hmem => ?_⟩⟩
  have hrun := (mem_running hc).mp (List.mem_filter.mp hmem).1
  rw [h] at hrun
  cases hrun

theorem Wf.not_missed (hc : c.Wf) (hs : s ∈ c.snapshots) : ¬ c.Missed s x :=
  fun h => h.2.2 (hc.listed s hs x h.2.1 h.1)

/-- What a snapshot sees does not change while it is held. -/
theorem sees_next (hc : c.Wf) (hn : Next c c') (hs : s ∈ c.snapshots) :
    c'.sees s x ↔ c.sees s x := by
  constructor
  · rintro ⟨hcom, hlt, hnot⟩
    refine ⟨?_, hlt, hnot⟩
    rcases hn.of_committed hcom with hcom | hrun
    · exact hcom
    · exact absurd (hc.listed s hs x hlt hrun) hnot
  · rintro ⟨hcom, hrest⟩
    exact ⟨hn.committed hc hcom, hrest⟩

theorem Settled.step (hx : c.Settled x) (hc : c.Wf) (hn : Next c c') : c'.Settled x := by
  refine ⟨hn.committed hc hx.1, fun s hs => ?_⟩
  rcases hn.snapshots hs with hs | ⟨rfl, rfl⟩
  · exact (sees_next hc hn hs).mpr (hx.2 s hs)
  · exact (sees_latest hc).mpr hx.1

end Clock

end Mvcc
