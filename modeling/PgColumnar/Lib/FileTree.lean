import PgColumnar.Lib.Paths

/-!
# A file system without symbolic links

A location is the list of names that leads to it from the root.  A path is walked one name at a
time, and a name is looked up in a directory only.
-/

open Paths

inductive FileKind
  | file
  | dir
  | special
  deriving DecidableEq

structure FileTree {α : Type} (sep dot : α) where
  kind : List (List α) → Option FileKind
  entries : List (List α) → List (List α)
  root_dir : kind [] = some .dir
  dir_of_child : ∀ loc n, (kind (loc ++ [n])).isSome → kind loc = some .dir
  mem_entries : ∀ loc n, n ∈ entries loc ↔ (kind (loc ++ [n])).isSome
  isName : ∀ loc n, n ∈ entries loc → IsName sep dot n

namespace FileTree

open List Option

variable {α : Type} [DecidableEq α] {sep dot : α}

/-- One name, looked up in a directory. -/
def enter (t : FileTree sep dot) (loc : List (List α)) (n : List α) : Option (List (List α)) :=
  if t.kind loc = some .dir ∧ (t.kind (go dot loc n)).isSome then some (go dot loc n) else none

/-- The location a path names.  A path of `limit` elements or more is too long. -/
def resolve (t : FileTree sep dot) (limit : ℕ) (cwd : List (List α)) (p : List α) :
    Option (List (List α)) :=
  if p = [] ∨ limit ≤ p.length then none
  else (p.splitOn sep).foldlM t.enter (if p.head? = some sep then [] else cwd)

section Resolve

variable {t : FileTree sep dot} {limit : ℕ} {cwd loc next : List (List α)} {n p : List α}
  {ns : List (List α)}

theorem enter_eq (h : t.enter loc n = some next) : t.kind loc = some .dir ∧
    next = go dot loc n := by
  unfold enter at h
  split_ifs at h with hdir
  exact ⟨hdir.1, (Option.some.inj h).symm⟩

theorem foldlM_enter (h : ns.foldlM t.enter loc = some next) : next = follow dot loc ns := by
  induction ns generalizing loc with
  | nil => exact (Option.some.inj h).symm
  | cons n ns ih =>
    rw [foldlM_cons] at h
    obtain ⟨mid, hmid, hrest⟩ := bind_eq_some_iff.mp h
    obtain ⟨-, rfl⟩ := enter_eq hmid
    exact ih hrest

theorem resolve_bounds (h : t.resolve limit cwd p = some loc) : p ≠ [] ∧ p.length < limit := by
  unfold resolve at h
  split at h
  · cases h
  · next hp => exact ⟨fun hnil => hp (.inl hnil), Nat.lt_of_not_le fun hle => hp (.inr hle)⟩

/-- **A path that names something names where it leads.** -/
theorem resolve_eq (h : t.resolve limit cwd p = some loc) : loc = location sep dot cwd p := by
  unfold resolve at h
  split at h
  · cases h
  · exact foldlM_enter h

/-- A last separator is walked in a directory. -/
theorem getLast?_of_resolve (h : t.resolve limit cwd p = some loc)
    (hfile : t.kind loc ≠ some .dir) :
    p.getLast? ≠ some sep := by
  intro hlast
  obtain ⟨front, rfl⟩ := getLast?_eq_some_iff.mp hlast
  have hsplit : (front ++ [sep]).splitOn sep = front.splitOn sep ++ [[]] := by
    rw [splitOn_append_cons_self, splitOn_nil]
  unfold resolve at h
  split at h
  · cases h
  · rw [hsplit, foldlM_append] at h
    obtain ⟨mid, -, hrest⟩ := bind_eq_some_iff.mp h
    rw [foldlM_cons] at hrest
    obtain ⟨next, hnext, hend⟩ := bind_eq_some_iff.mp hrest
    obtain ⟨hdir, rfl⟩ := enter_eq hnext
    exact hfile ((Option.some.inj hend) ▸ hdir)

end Resolve

/-! ### One file -/

section Single

variable {names : List (List α)}

def singleKind (names loc : List (List α)) : Option FileKind :=
  if loc = names then some .file else if loc <+: names then some .dir else none

theorem singleKind_isSome {loc : List (List α)} : (singleKind names loc).isSome ↔
    loc <+: names := by
  unfold singleKind
  split_ifs with h1 h2
  · simp [h1]
  · simp [h2]
  · simp [h2]

omit [DecidableEq α] in
theorem prefix_concat_iff {loc : List (List α)} {n : List α} :
    loc ++ [n] <+: names ↔ loc <+: names ∧ names[loc.length]? = some n := by
  constructor
  · intro h
    obtain ⟨rest, rfl⟩ := h
    exact ⟨⟨[n] ++ rest, by simp⟩, by simp⟩
  · intro h
    obtain ⟨⟨rest, rfl⟩, hn⟩ := h
    rw [getElem?_append_right le_rfl, Nat.sub_self] at hn
    obtain ⟨tail, rfl⟩ := head?_eq_some_iff.mp (head?_eq_getElem? ▸ hn)
    exact ⟨tail, by simp⟩

/-- The tree that holds one file. -/
def single (names : List (List α)) (hne : names ≠ []) (hnames : ∀ n ∈ names, IsName sep dot n) :
    FileTree sep dot where
  kind := singleKind names
  entries loc := if loc <+: names then names[loc.length]?.toList else []
  root_dir := by
    rw [singleKind, if_neg (Ne.symm hne), if_pos nil_prefix]
  dir_of_child := by
    intro loc n h
    obtain ⟨hloc, hn⟩ := prefix_concat_iff.mp (singleKind_isSome.mp h)
    have hlt : loc.length < names.length := (List.getElem?_eq_some_iff.mp hn).1
    rw [singleKind, if_neg fun heq => by simp [heq] at hlt, if_pos hloc]
  mem_entries := by
    intro loc n
    rw [singleKind_isSome, prefix_concat_iff]
    by_cases h : loc <+: names
    · simp [h, eq_comm]
    · simp [h]
  isName := by
    intro loc n h
    split at h
    · exact hnames n (mem_of_getElem? (mem_toList.mp h))
    · cases h

end Single

end FileTree
