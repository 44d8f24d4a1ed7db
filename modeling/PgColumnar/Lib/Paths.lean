import Mathlib.Data.List.DropRight
import Mathlib.Tactic.SplitIfs

/-!
# Path names

A path is a string of names between separators.  An empty name and a single dot stay where they are,
two dots lead to the parent, and the root is its own parent: without symbolic links this is where
the path leads, whatever the directories hold.

## Main definitions

* `follow`, `normal` — where the steps of a path lead, and what is left of them.

## Main results

* `follow_normal` — what is left leads to the same place.
-/

namespace Paths

open List

variable {α : Type} [DecidableEq α] (sep dot : α)

/-- A name a directory can list. -/
structure IsName (n : List α) : Prop where
  ne_nil : n ≠ []
  ne_dot : n ≠ [dot]
  ne_up : n ≠ [dot, dot]
  notMem : sep ∉ n

instance (n : List α) : Decidable (IsName sep dot n) :=
  decidable_of_iff (n ≠ [] ∧ n ≠ [dot] ∧ n ≠ [dot, dot] ∧ sep ∉ n)
    ⟨fun h => ⟨h.1, h.2.1, h.2.2.1, h.2.2.2⟩, fun h => ⟨h.1, h.2, h.3, h.4⟩⟩

/-- Where one name leads. -/
def go (loc : List (List α)) (n : List α) : List (List α) :=
  if n = [] ∨ n = [dot] then loc else if n = [dot, dot] then loc.dropLast else loc ++ [n]

def follow (loc : List (List α)) (ns : List (List α)) : List (List α) := ns.foldl (go dot) loc

/-- Where a path leads from the working directory. -/
def location (cwd : List (List α)) (p : List α) : List (List α) :=
  follow dot (if p.head? = some sep then [] else cwd) (p.splitOn sep)

section Follow

variable {sep dot} {loc cwd ns names : List (List α)} {n p q : List α}

theorem go_name (h : IsName sep dot n) : go dot loc n = loc ++ [n] := by
  simp [go, h.ne_nil, h.ne_dot, h.ne_up]

@[simp] theorem go_nil : go dot loc [] = loc := by simp [go]

@[simp] theorem go_dot : go dot loc [dot] = loc := by simp [go]

@[simp] theorem go_up : go dot loc [dot, dot] = loc.dropLast := by simp [go]

theorem follow_append (ms : List (List α)) :
    follow dot loc (ns ++ ms) = follow dot (follow dot loc ns) ms :=
  foldl_append

theorem follow_names (h : ∀ n ∈ names, IsName sep dot n) : follow dot loc names = loc ++ names := by
  induction names generalizing loc with
  | nil => simp [follow]
  | cons n names ih =>
    have hrest : follow dot (loc ++ [n]) names = (loc ++ [n]) ++ names :=
      ih fun m hm => h m (mem_cons_of_mem n hm)
    rw [follow, foldl_cons, go_name (h n mem_cons_self), ← follow, hrest]
    simp

theorem location_append (hp : p ≠ []) :
    location sep dot cwd (p ++ sep :: q) = follow dot (location sep dot cwd p) (q.splitOn sep) := by
  have hhead : (p ++ sep :: q).head? = p.head? := head?_append_of_ne_nil p hp
  rw [location, hhead, splitOn_append_cons_self, follow_append, ← location]

theorem location_append_name (hp : p ≠ []) (h : IsName sep dot n) :
    location sep dot cwd (p ++ sep :: n) = location sep dot cwd p ++ [n] := by
  rw [location_append hp, splitOn_eq_singleton h.notMem]
  exact go_name h

end Follow

/-! ### Dropping names -/

def push (rooted : Bool) (s : List (List α)) (n : List α) : List (List α) :=
  if n ≠ [dot, dot] then s ++ [n]
  else if s ≠ [] ∧ s.getLast? ≠ some [dot, dot] then s.dropLast
  else if rooted then s
  else s ++ [n]

/-- The names that lead on. -/
def steps (ns : List (List α)) : List (List α) := ns.filter fun n => n ≠ [] ∧ n ≠ [dot]

def normal (rooted : Bool) (ns : List (List α)) : List (List α) :=
    (steps dot ns).foldl (push dot rooted) []

section Normal

variable {sep dot} {loc base s ns names : List (List α)} {n : List α}

theorem steps_cons (n : List α) (ns : List (List α)) :
    steps dot (n :: ns) = if n = [] ∨ n = [dot] then steps dot ns else n :: steps dot ns := by
  by_cases h : n = [] ∨ n = [dot]
  · rw [if_pos h, steps, filter_cons_of_neg (by simpa [or_iff_not_imp_left] using h), steps]
  · rw [if_neg h, steps, filter_cons_of_pos (by simpa [not_or] using h), steps]

theorem up_notMem_go (hs : [dot, dot] ∉ s) : [dot, dot] ∉ go dot s n := by
  unfold go
  split_ifs with h1 h2
  · exact hs
  · exact fun hmem => hs (dropLast_subset s hmem)
  · simpa [hs] using fun heq : [dot, dot] = n => h2 heq.symm

/-- In a rooted path the stack is the location. -/
theorem push_rooted (hs : [dot, dot] ∉ s) (hn : ¬ (n = [] ∨ n = [dot])) :
    push dot true s n = go dot s n := by
  rw [push, go, if_neg hn]
  by_cases hup : n = [dot, dot]
  · rw [if_neg (not_not.mpr hup), if_pos hup]
    by_cases hnil : s = []
    · simp [hnil]
    · have hlast : s.getLast? ≠ some [dot, dot] := fun heq => hs (mem_of_getLast? heq)
      rw [if_pos ⟨hnil, hlast⟩]
  · rw [if_pos hup, if_neg hup]

theorem normal_rooted_from (hs : [dot, dot] ∉ s) :
    (steps dot ns).foldl (push dot true) s = follow dot s ns := by
  induction ns generalizing s with
  | nil => rfl
  | cons n ns ih =>
    rw [steps_cons, follow, foldl_cons, ← follow]
    by_cases h : n = [] ∨ n = [dot]
    · rw [if_pos h, ih hs, go, if_pos h]
    · rw [if_neg h, foldl_cons, push_rooted hs h, ih (up_notMem_go hs)]

/-- **What is left of a rooted path is where it leads.** -/
theorem normal_rooted (ns : List (List α)) : normal dot true ns = follow dot [] ns :=
  normal_rooted_from (not_mem_nil)

/-- Two dots drop what the stack ends in, unless that is two dots. -/
theorem follow_push (hs : ∀ m ∈ s, m ≠ [] ∧ m ≠ [dot]) :
    follow dot base (push dot false s n) = go dot (follow dot base s) n := by
  simp only [push, Bool.false_eq_true, if_false]
  split_ifs with h1 h2
  · exact follow_append [n]
  · obtain ⟨front, last, rfl⟩ := (eq_nil_or_concat' s).resolve_left h2.1
    have hup : last ≠ [dot, dot] := by simpa using h2.2
    have hlast := hs last (by simp)
    have hgo : go dot (follow dot base front) last = follow dot base front ++ [last] := by
      simp [go, hlast, hup]
    rw [dropLast_concat, follow_append, not_not.mp h1, go_up]
    change _ = (go dot (follow dot base front) last).dropLast
    rw [hgo, dropLast_concat]
  · exact follow_append [n]

theorem push_subset (rooted : Bool) (s : List (List α)) (n : List α) :
    push dot rooted s n ⊆ s ++ [n] := by
  unfold push
  split_ifs with h1 h2
  · exact List.Subset.refl _
  · exact subset_append_of_subset_left _ (dropLast_subset s)
  · exact subset_append_left s [n]
  · exact List.Subset.refl _

theorem push_nonempty (hs : ∀ m ∈ s, m ≠ [] ∧ m ≠ [dot]) (hn : ¬ (n = [] ∨ n = [dot])) :
    ∀ m ∈ push dot false s n, m ≠ [] ∧ m ≠ [dot] := by
  intro m hm
  have hmem := push_subset false s n hm
  rw [mem_append, mem_singleton] at hmem
  obtain hmem | rfl := hmem
  · exact hs m hmem
  · exact not_or.mp hn

theorem follow_normal_from (hs : ∀ m ∈ s, m ≠ [] ∧ m ≠ [dot]) :
    follow dot base ((steps dot ns).foldl (push dot false) s) =
      follow dot (follow dot base s) ns := by
  induction ns generalizing s with
  | nil => rfl
  | cons n ns ih =>
    rw [steps_cons]
    by_cases h : n = [] ∨ n = [dot]
    · rw [if_pos h, ih hs]
      change _ = follow dot (go dot (follow dot base s) n) ns
      rw [go, if_pos h]
    · rw [if_neg h, foldl_cons, ih (push_nonempty hs h), follow_push hs]
      rfl

/-- **What is left of a path leads where the path does.** -/
theorem follow_normal (base ns : List (List α)) :
    follow dot base (normal dot false ns) = follow dot base ns :=
  follow_normal_from (by simp)

theorem mem_normal {rooted : Bool} (h : n ∈ normal dot rooted ns) : n ∈ ns ∧ n ≠ [] ∧
    n ≠ [dot] := by
  have hfold : ∀ ms s, n ∈ List.foldl (push dot rooted) s ms → n ∈ s ++ ms := by
    intro ms
    induction ms with
    | nil => exact fun s hs => by simpa using hs
    | cons m ms ih =>
      intro s hs
      have hmem := ih _ hs
      rw [mem_append] at hmem
      obtain hpush | hms := hmem
      · have hsub := push_subset rooted s m hpush
        simp only [mem_append, mem_cons] at hsub ⊢
        tauto
      · simp [hms]
  simpa [steps] using hfold _ [] h

/-! ### The two dots a relative path begins with -/

theorem follow_replicate (k : ℕ) :
    follow dot base (List.replicate k [dot, dot]) = base.take (base.length - k) := by
  induction k with
  | zero => simp [follow]
  | succ k ih =>
    rw [replicate_succ', follow_append, ih]
    change go dot _ [dot, dot] = _
    rw [go_up, dropLast_eq_take, take_take, length_take]
    congr 1
    omega

/-- The two dots that nothing stands before, and the names behind them. -/
def Climbs (dot : α) (k : ℕ) (names s : List (List α)) : Prop :=
  s = List.replicate k [dot, dot] ++ names ∧ [dot, dot] ∉ names

theorem Climbs.push {k : ℕ} (h : Climbs dot k names s) :
    ∃ j ms, Climbs dot j ms (push dot false s n) := by
  obtain ⟨rfl, hnames⟩ := h
  simp only [Paths.push, Bool.false_eq_true, if_false]
  split_ifs with h1 h2
  · refine ⟨k, names ++ [n], by simp, ?_⟩
    simpa [hnames] using fun heq : [dot, dot] = n => h1 heq.symm
  · have hne : names ≠ [] := by
      intro hnil
      subst hnil
      cases k with
      | zero => exact h2.1 rfl
      | succ k => exact h2.2 (by simp [replicate_succ'])
    exact ⟨k, names.dropLast, by rw [dropLast_append_of_ne_nil hne],
      fun hmem => hnames (dropLast_subset names hmem)⟩
  · by_cases hnil : names = []
    · subst hnil
      exact ⟨k + 1, [], by simp [not_not.mp h1, replicate_succ'], not_mem_nil⟩
    · -- the last name is not two dots, so that it would have been dropped
      refine absurd ⟨by simp [hnil], ?_⟩ h2
      rw [getLast?_append_of_ne_nil _ hnil]
      exact fun heq => hnames (mem_of_getLast? heq)

theorem climbs_normal (dot : α) (ns : List (List α)) :
    ∃ k names, Climbs dot k names (normal dot false ns) := by
  have hfold : ∀ ms s, (∃ k names, Climbs dot k names s) →
      ∃ k names, Climbs dot k names (List.foldl (Paths.push dot false) s ms) := by
    intro ms
    induction ms with
    | nil => exact fun s hs => hs
    | cons m ms ih =>
      intro s hs
      obtain ⟨k, names, h⟩ := hs
      exact ih _ h.push
  exact hfold _ [] ⟨0, [], rfl, not_mem_nil⟩

theorem Climbs.isName {k : ℕ} (h : Climbs dot k names (normal dot false ns))
    (hsep : ∀ m ∈ ns, sep ∉ m) :
    ∀ m ∈ names, IsName sep dot m := by
  intro m hm
  have hmem : m ∈ normal dot false ns := by
    rw [h.1]
    exact mem_append_right _ hm
  obtain ⟨hns, hnil, hdot⟩ := mem_normal hmem
  exact ⟨hnil, hdot, fun heq => h.2 (heq ▸ hm), hsep m hns⟩

/-- Each pair of dots takes a name off the directory. -/
theorem Climbs.follow {k : ℕ} (h : Climbs dot k names s) (hnames : ∀ m ∈ names, IsName sep dot m) :
    follow dot base s = base.take (base.length - k) ++ names := by
  rw [h.1, follow_append, follow_replicate, follow_names hnames]

end Normal

/-! ### Names as text -/

/-- Every name behind a separator. -/
def trail (ns : List (List α)) : List α := ns.flatMap (sep :: ·)

/-- What is left of a path, as a path again. -/
def text (rooted trailing : Bool) (s : List (List α)) : List α :=
  let q := (if rooted then [sep] else []) ++ [sep].intercalate s
  let r := if q = [] then [dot] else q
  r ++ if trailing ∧ r.getLast? ≠ some sep then [sep] else []

section Text

variable {sep dot} {ns ms s : List (List α)} {n : List α}

omit [DecidableEq α] in
theorem trail_append (ns ms : List (List α)) :
    trail sep (ns ++ ms) = trail sep ns ++ trail sep ms :=
  flatMap_append

omit [DecidableEq α] in
theorem trail_cons (n : List α) (ns : List (List α)) :
    trail sep (n :: ns) = sep :: n ++ trail sep ns :=
  flatMap_cons

omit [DecidableEq α] in
theorem cons_intercalate (h : ns ≠ []) : sep :: [sep].intercalate ns = trail sep ns := by
  induction ns with
  | nil => exact absurd rfl h
  | cons n ns ih =>
    by_cases hnil : ns = []
    · simp [hnil, trail]
    · rw [intercalate_cons_of_ne_nil hnil, trail_cons, ← ih hnil]
      simp

omit [DecidableEq α] in
/-- **Names inside a location are inside its text.** -/
theorem trail_isInfix {rs : List (List α)} (sep : α) (ls ms : List (List α)) (hrs : rs ≠ []) :
    trail sep ms ++ [sep] <:+: trail sep (ls ++ ms ++ rs) := by
  obtain ⟨r, rest, rfl⟩ := exists_cons_of_ne_nil hrs
  refine ⟨trail sep ls, r ++ trail sep rest, ?_⟩
  rw [trail_append, trail_append, trail_cons]
  simp

omit [DecidableEq α] in
theorem trail_isPrefix {rs : List (List α)} (sep : α) (ms : List (List α)) (hrs : rs ≠ []) :
    trail sep ms ++ [sep] <+: trail sep (ms ++ rs) := by
  obtain ⟨r, rest, rfl⟩ := exists_cons_of_ne_nil hrs
  refine ⟨r ++ trail sep rest, ?_⟩
  rw [trail_append, trail_cons]
  simp

omit [DecidableEq α] in
theorem getLast?_trail (hs : ∀ m ∈ s, m ≠ [] ∧ sep ∉ m) (hne : s ≠ []) :
    (trail sep s).getLast? ≠ some sep := by
  obtain ⟨front, last, rfl⟩ := (eq_nil_or_concat' s).resolve_left hne
  obtain ⟨hnil, hsep⟩ := hs last (by simp)
  have htext : trail sep (front ++ [last]) = (trail sep front ++ [sep]) ++ last := by
    simp [trail]
  rw [htext, getLast?_append_of_ne_nil _ hnil]
  exact fun heq => hsep (mem_of_getLast? heq)

/-- A rooted text begins with the separator of its first name. -/
theorem text_rooted (hs : ∀ m ∈ s, m ≠ [] ∧ sep ∉ m) (trailing : Bool) :
    text sep dot true trailing s =
      if s = [] then [sep] else trail sep s ++ if trailing then [sep] else [] := by
  by_cases hnil : s = []
  · simp [text, hnil]
  · have htrail : sep :: [sep].intercalate s = trail sep s := cons_intercalate hnil
    have hne : trail sep s ≠ [] := by
      rw [← htrail]
      exact cons_ne_nil _ _
    simp [text, htrail, hne, hnil, getLast?_trail hs hnil]

theorem text_relative (dot : α) (hs : ∀ m ∈ s, m ≠ [] ∧ sep ∉ m) (hne : s ≠ []) (trailing : Bool) :
    sep :: text sep dot false trailing s = trail sep s ++ if trailing then [sep] else [] := by
  have htrail : sep :: [sep].intercalate s = trail sep s := cons_intercalate hne
  obtain ⟨n, rest, rfl⟩ := exists_cons_of_ne_nil hne
  have hn := hs n mem_cons_self
  have hinner : [sep].intercalate (n :: rest) ≠ [] := by
    intro hnil
    rw [hnil, trail_cons] at htrail
    exact hn.1 (append_eq_nil_iff.mp (tail_eq_of_cons_eq htrail).symm).1
  have hlast : ([sep].intercalate (n :: rest)).getLast? ≠ some sep := by
    intro heq
    refine getLast?_trail hs hne ?_
    rw [← htrail, ← singleton_append, getLast?_append_of_ne_nil _ hinner]
    exact heq
  simp [text, hinner, hlast, ← htrail]

/-- The separators at the end of a text are dropped. -/
theorem rdropWhile_trail (hs : ∀ m ∈ s, m ≠ [] ∧ sep ∉ m) (trailing : Bool) :
    (trail sep s ++ if trailing then [sep] else []).rdropWhile (· == sep) = trail sep s := by
  have hself : (trail sep s).rdropWhile (· == sep) = trail sep s := by
    rw [rdropWhile_eq_self_iff]
    intro hne heq
    have hnil : s ≠ [] := fun h => hne (by simp [h, trail])
    refine getLast?_trail hs hnil ?_
    rw [getLast?_eq_some_getLast hne, eq_of_beq heq]
  cases trailing with
  | false => simpa using hself
  | true => simp [hself]

theorem location_append_trail (cwd : List (List α)) {p : List α} (hp : p ≠ [])
    (hs : ∀ m ∈ s, IsName sep dot m) :
    location sep dot cwd (p ++ trail sep s) = location sep dot cwd p ++ s := by
  induction s generalizing p with
  | nil => simp [trail]
  | cons n s ih =>
    have hn := hs n mem_cons_self
    have hrest := ih (p := p ++ sep :: n) (by simp) fun m hm => hs m (mem_cons_of_mem n hm)
    rw [trail_cons, ← append_assoc, hrest, location_append_name hp hn, append_assoc,
      singleton_append]

theorem rdropWhile_text_relative (hs : ∀ m ∈ s, m ≠ [] ∧ sep ∉ m) (hne : s ≠ []) (trailing : Bool) :
    sep :: (text sep dot false trailing s).rdropWhile (· == sep) = trail sep s := by
  have hwhole := rdropWhile_trail hs trailing
  rw [← text_relative dot hs hne] at hwhole
  have htrail : trail sep s ≠ [] := by
    obtain ⟨n, rest, rfl⟩ := exists_cons_of_ne_nil hne
    simp [trail_cons]
  rw [List.rdropWhile, reverse_cons, dropWhile_append] at hwhole
  split at hwhole
  · simp at hwhole
    exact absurd hwhole htrail
  · simpa [List.rdropWhile] using hwhole

/-- The text of a location leads to it. -/
theorem location_text {cwd : List (List α)} (hs : ∀ m ∈ s, IsName sep dot m) :
    location sep dot cwd (text sep dot true false s) = s := by
  have hsplit : ∀ n : List α, (sep :: n).splitOn sep = [] :: n.splitOn sep := by
    intro n
    have happ := splitOn_append_cons_self (a := sep) ([] : List α) n
    rwa [splitOn_nil, nil_append] at happ
  rw [text_rooted fun m hm => ⟨(hs m hm).ne_nil, (hs m hm).notMem⟩]
  cases s with
  | nil => simp [location, hsplit, follow]
  | cons n s =>
    have hn := hs n mem_cons_self
    have hone : location sep dot cwd (sep :: n) = [n] := by
      rw [location, hsplit, splitOn_eq_singleton hn.notMem]
      simp [follow, go_name hn]
    have hrest := location_append_trail cwd (cons_ne_nil sep n)
      fun m hm => hs m (mem_cons_of_mem n hm)
    rw [hone] at hrest
    simpa [trail_cons] using hrest

end Text

end Paths
