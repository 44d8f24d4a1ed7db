import PgColumnar.Lib.SortMerge

/-!
# Lists in groups

The elements of a list collected by the key that a function reads from each, under an equality
of keys that need not be identity.  Every group shows the key of one of its members.

## Main definitions

* `Pieces`, `Grouped` — lists cut into groups that show a key.

## Main results

* `Pieces.merge` — groups merged run by run.
-/

namespace Grouping

open SortMerge List

variable {ρ κ τ : Type*} {eq fine : κ → κ → Bool} {key : ρ → κ} {rows rows' : List ρ}
  {gs gs' : List (κ × List ρ)}

/-- Groups, each with the key that it shows, that share the elements out. -/
structure Pieces (eq : κ → κ → Bool) (key : ρ → κ) (rows : List ρ) (gs : List (κ × List ρ)) :
    Prop where
  perm : (gs.flatMap Prod.snd).Perm rows
  shown : ∀ g ∈ gs, ∃ r ∈ g.2, key r = g.1
  member : ∀ g ∈ gs, ∀ r ∈ g.2, eq g.1 (key r) = true

/-- No two groups show equal keys. -/
structure Grouped (eq : κ → κ → Bool) (key : ρ → κ) (rows : List ρ) (gs : List (κ × List ρ)) :
    Prop extends Pieces eq key rows gs where
  distinct : gs.Pairwise fun g g' => eq g.1 g'.1 = false

theorem Pieces.nil : Pieces eq key [] [] where
  perm := List.Perm.nil
  shown := by simp
  member := by simp

theorem Pieces.append (h : Pieces eq key rows gs) (h' : Pieces eq key rows' gs') :
    Pieces eq key (rows ++ rows') (gs ++ gs') where
  perm := by
    rw [flatMap_append]
    exact h.perm.append h'.perm
  shown g hg := (mem_append.mp hg).elim (h.shown g) (h'.shown g)
  member g hg := (mem_append.mp hg).elim (h.member g) (h'.member g)

theorem Pieces.of_perm (h : Pieces eq key rows gs) (hperm : gs.Perm gs') :
    Pieces eq key rows gs' where
  perm := (hperm.symm.flatMap_right _).trans h.perm
  shown g hg := h.shown g (hperm.mem_iff.mpr hg)
  member g hg := h.member g (hperm.mem_iff.mpr hg)

/-- Equality of keys, as a relation. -/
def RelOf (eq : κ → κ → Bool) (a b : κ) : Prop := eq a b = true

theorem eq_comm_of (heq : Equivalence (RelOf eq)) (a b : κ) : eq a b = eq b a := by
  rw [Bool.eq_iff_iff]
  exact ⟨heq.symm, heq.symm⟩

theorem Grouped.of_perm (heq : Equivalence (RelOf eq)) (h : Grouped eq key rows gs)
    (hperm : gs.Perm gs') : Grouped eq key rows gs' where
  toPieces := h.toPieces.of_perm hperm
  distinct := by
    apply List.Pairwise.perm h.distinct hperm
    intro a b hab
    rwa [eq_comm_of heq]

/-! ### One more element -/

/-- The element joins the group in front. -/
theorem Grouped.add {g : κ × List ρ} (h : Grouped eq key rows (g :: gs)) {r : ρ}
    (hr : eq g.1 (key r) = true) : Grouped eq key (rows ++ [r]) ((g.1, g.2 ++ [r]) :: gs) where
  perm := by
    have hperm := h.perm
    rw [flatMap_cons] at hperm ⊢
    rw [append_assoc]
    have hmove : ([r] ++ gs.flatMap Prod.snd).Perm (gs.flatMap Prod.snd ++ [r]) :=
      perm_append_comm
    refine (hmove.append_left g.2).trans ?_
    rw [← append_assoc]
    exact hperm.append_right [r]
  shown g' hg' := by
    rcases mem_cons.mp hg' with rfl | hg'
    · obtain ⟨r', hr', hkey⟩ := h.shown g mem_cons_self
      exact ⟨r', mem_append_left _ hr', hkey⟩
    · exact h.shown g' (mem_cons_of_mem _ hg')
  member g' hg' r' hr' := by
    rcases mem_cons.mp hg' with rfl | hg'
    · rcases mem_append.mp hr' with hr' | hr'
      · exact h.member g mem_cons_self r' hr'
      · rwa [mem_singleton.mp hr']
    · exact h.member g' (mem_cons_of_mem _ hg') r' hr'
  distinct := by
    obtain ⟨hfirst, hrest⟩ := pairwise_cons.mp h.distinct
    exact pairwise_cons.mpr ⟨hfirst, hrest⟩

/-- The element starts a group of its own. -/
theorem Grouped.addNew (heq : Equivalence (RelOf eq)) (h : Grouped eq key rows gs) {r : ρ}
    (hr : ∀ g ∈ gs, eq g.1 (key r) = false) :
    Grouped eq key (rows ++ [r]) ((key r, [r]) :: gs) where
  perm := by
    rw [flatMap_cons]
    exact perm_append_comm.trans (h.perm.append_right [r])
  shown g hg := by
    rcases mem_cons.mp hg with rfl | hg
    · exact ⟨r, mem_singleton_self r, rfl⟩
    · exact h.shown g hg
  member g hg r' hr' := by
    rcases mem_cons.mp hg with rfl | hg
    · rw [mem_singleton.mp hr']
      exact heq.refl _
    · exact h.member g hg r' hr'
  distinct := by
    refine pairwise_cons.mpr ⟨?_, h.distinct⟩
    intro g hg
    rw [eq_comm_of heq]
    exact hr g hg

/-- A key is that of an element if a group shows it. -/
theorem Pieces.any (heq : Equivalence (RelOf eq)) (h : Pieces eq key rows gs) (k : κ) :
    (rows.any fun r => eq (key r) k) = gs.any fun g => eq g.1 k := by
  rw [Bool.eq_iff_iff, any_eq_true, any_eq_true]
  constructor
  · intro hex
    obtain ⟨r, hr, hk⟩ := hex
    obtain ⟨g, hg, hrg⟩ := mem_flatMap.mp (h.perm.mem_iff.mpr hr)
    exact ⟨g, hg, heq.trans (h.member g hg r hrg) hk⟩
  · intro hex
    obtain ⟨g, hg, hk⟩ := hex
    obtain ⟨r, hr, hkey⟩ := h.shown g hg
    exact ⟨r, h.perm.mem_iff.mp (mem_flatMap.mpr ⟨g, hg, hr⟩), hkey ▸ hk⟩

/-- **The elements with a key** are the members of the groups that show it. -/
theorem Pieces.filter (heq : Equivalence (RelOf eq)) (h : Pieces eq key rows gs) (k : κ) :
    ((gs.filter fun g => eq k g.1).flatMap Prod.snd).Perm (rows.filter fun r => eq k (key r)) := by
  refine List.Perm.trans (List.Perm.of_eq ?_) (h.perm.filter _)
  have hmember := h.member
  clear h
  induction gs with
  | nil => rfl
  | cons g gs ih =>
    have hih := ih fun g' hg' => hmember g' (mem_cons_of_mem _ hg')
    have hg := hmember g mem_cons_self
    rw [flatMap_cons, filter_append, ← hih]
    cases hk : eq k g.1 with
    | true =>
      simp only [filter_cons, hk, if_true, flatMap_cons]
      congr 1
      exact (filter_eq_self.mpr fun r hr => heq.trans hk (hg r hr)).symm
    | false =>
      simp only [filter_cons, hk, Bool.false_eq_true, if_false]
      have hnone : g.2.filter (fun r => eq k (key r)) = [] := by
        rw [filter_eq_nil_iff]
        intro r hr hkr
        have hkg : eq k g.1 = true := heq.trans hkr (heq.symm (hg r hr))
        rw [hk] at hkg
        cases hkg
      rw [hnone, nil_append]

/-- The elements with the key that a group shows are its members. -/
theorem Grouped.filter (heq : Equivalence (RelOf eq)) (h : Grouped eq key rows gs)
    {g : κ × List ρ} (hg : g ∈ gs) : g.2.Perm (rows.filter fun r => eq g.1 (key r)) := by
  obtain ⟨before, after, rfl⟩ := append_of_mem hg
  have hmiddle : (before ++ g :: after).Perm (g :: (before ++ after)) := perm_middle
  have hfront := h.of_perm heq hmiddle
  have hrest : (before ++ after).filter (fun g' => eq g.1 g'.1) = [] := by
    rw [filter_eq_nil_iff]
    intro g' hg' heq'
    rw [(pairwise_cons.mp hfront.distinct).1 g' hg'] at heq'
    cases heq'
  have hperm := hfront.toPieces.filter heq g.1
  have hself : eq g.1 g.1 = true := heq.refl g.1
  simp only [filter_cons, hself, if_true] at hperm
  rw [hrest, flatMap_cons, flatMap_nil, append_nil] at hperm
  exact hperm

/-! ### A coarser equality -/

theorem Pieces.mono (h : Pieces fine key rows gs)
    (hfine : ∀ a b, fine a b = true → eq a b = true) : Pieces eq key rows gs :=
  ⟨h.perm, h.shown, fun g hg r hr => hfine _ _ (h.member g hg r hr)⟩

/-- **The groups of a finer equality** are those of a coarser one exactly if the two do not
differ on the keys of the elements. -/
theorem Grouped.coarser (heq : Equivalence (RelOf eq)) (hfineq : Equivalence (RelOf fine))
    (hfine : ∀ a b, fine a b = true → eq a b = true) (h : Grouped fine key rows gs) :
    (gs.Pairwise fun g g' => eq g.1 g'.1 = false) ↔
      ∀ r ∈ rows, ∀ r' ∈ rows, eq (key r) (key r') = true → fine (key r) (key r') = true := by
  constructor
  · intro hdistinct r hr r' hr' hkeys
    obtain ⟨g, hg, hrg⟩ := mem_flatMap.mp (h.perm.mem_iff.mpr hr)
    obtain ⟨g', hg', hrg'⟩ := mem_flatMap.mp (h.perm.mem_iff.mpr hr')
    have hgr := h.member g hg r hrg
    have hgr' := h.member g' hg' r' hrg'
    have hgg' : eq g.1 g'.1 = true :=
      heq.trans (hfine _ _ hgr) (heq.trans hkeys (heq.symm (hfine _ _ hgr')))
    have hsame : g = g' := by
      by_contra hne
      have hsymm : Std.Symm fun a b : κ × List ρ => eq a.1 b.1 = false :=
        ⟨fun a b hab => by rwa [eq_comm_of heq]⟩
      have hneg := hdistinct.forall hg hg' hne
      rw [hneg] at hgg'
      cases hgg'
    subst hsame
    exact hfineq.trans (hfineq.symm hgr) hgr'
  · intro hall
    refine h.distinct.imp_of_mem fun {g g'} hg hg' hneg => ?_
    by_contra heqgg
    rw [Bool.not_eq_false] at heqgg
    obtain ⟨r, hr, hkey⟩ := h.shown g hg
    obtain ⟨r', hr', hkey'⟩ := h.shown g' hg'
    have hmem : r ∈ rows := h.perm.mem_iff.mp (mem_flatMap.mpr ⟨g, hg, hr⟩)
    have hmem' : r' ∈ rows := h.perm.mem_iff.mp (mem_flatMap.mpr ⟨g', hg', hr'⟩)
    have hfinegg := hall r hmem r' hmem' (by rw [hkey, hkey']; exact heqgg)
    rw [hkey, hkey', hneg] at hfinegg
    cases hfinegg

/-! ### Merging the runs of a sorted list -/

/-- **Groups merged run by run**, in a list that an order of their keys sorts. -/
theorem Pieces.merge {le : τ → τ → Prop} {same : τ → τ → Bool} {read : τ → κ × List ρ}
    {l : List τ} (heq : Equivalence (RelOf eq)) (h : Pieces eq key rows (l.map read))
    (hclasses : Classes le same) (hsorted : l.Pairwise le)
    (hsame : ∀ x y, same x y = eq (read x).1 (read y).1) :
    Grouped eq key rows ((sortedRuns same l).map fun run =>
      ((read run.1).1, (elements run).flatMap fun x => (read x).2)) := by
  obtain ⟨hruns, hdistinct⟩ := sortedRuns_spec hclasses l hsorted
  have hall : ∀ run ∈ sortedRuns same l, ∀ x ∈ elements run, x ∈ l := by
    intro run hrun x hx
    rw [← flatMap_elements same l]
    exact mem_flatMap.mpr ⟨run, hrun, hx⟩
  refine ⟨⟨?_, ?_, ?_⟩, ?_⟩
  · refine List.Perm.trans (List.Perm.of_eq ?_) h.perm
    rw [flatMap_map, flatMap_map]
    conv_rhs => rw [← flatMap_elements same l]
    rw [flatMap_assoc]
  · intro g hg
    obtain ⟨run, hrun, rfl⟩ := mem_map.mp hg
    obtain ⟨r, hr, hkey⟩ := h.shown _ (mem_map_of_mem (hruns run hrun).1)
    exact ⟨r, mem_flatMap.mpr ⟨run.1, mem_cons_self, hr⟩, hkey⟩
  · intro g hg r hr
    obtain ⟨run, hrun, rfl⟩ := mem_map.mp hg
    obtain ⟨x, hx, hrx⟩ := mem_flatMap.mp hr
    have hmember := h.member _ (mem_map_of_mem (hall run hrun x hx)) r hrx
    have hfirst : eq (read run.1).1 (read x).1 = true := by
      rcases mem_cons.mp hx with rfl | hx
      · exact heq.refl _
      · rw [← hsame]
        exact (hruns run hrun).2 x hx
    exact heq.trans hfirst hmember
  · rw [pairwise_map]
    refine hdistinct.imp fun {a b} hab => ?_
    rw [← hsame]
    exact hab

end Grouping
