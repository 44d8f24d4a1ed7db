import PgColumnar.Names.Catalog
import Mathlib.Data.List.Flatten

/-!
# Column names mean the columns they were recorded for

A rename moves a name from one column to nothing and another one to it, and the catalogs follow
the column.  So a name in a catalog can only come to mean another column when that column takes
the name, and a benign statement gives no column a name that a catalog holds for another.

## Main definitions

* `RefTrue`, `TableInv`, `Inv` — a recorded name means the column it was recorded for.

## Main results

* `inv_step` — a benign statement keeps that.
* `denotes_of_run` — every name keeps its promise in a run of them.
-/

namespace PgColumnar.Names

open Run List Nat

variable {δ : Type} {t t' : Table δ}

/-! ### Names -/

/-- A name means the column that it was recorded for, or none. -/
def RefTrue (t : Table δ) (ref : Ref) : Prop :=
  ∀ i, t.getAttnum ref.name = some i → ref.attnum = some i

theorem liveName_rename (old new : String) (a : Attribute δ) :
    (a.rename old new).liveName = if a.liveName = some old then some new else a.liveName := by
  unfold Attribute.rename
  split
  · next h =>
    unfold Attribute.liveName at h ⊢
    split_ifs at h with hlive
    simp [hlive]
  · rfl

theorem liveName_drop (name : String) (a : Attribute δ) :
    (a.drop name).liveName = if a.liveName = some name then none else a.liveName := by
  unfold Attribute.drop
  split
  · simp [Attribute.liveName]
  · rfl

theorem names_renameColumn (old new : String) (t : Table δ) :
    (t.renameColumn old new).names = Naming.rename old new t.names := by
  unfold Table.names Table.renameColumn Naming.rename
  rw [map_map, map_map]
  exact map_congr_left fun a _ => liveName_rename old new a

theorem names_dropColumn (name : String) (t : Table δ) :
    (t.dropColumn name).names = Naming.drop name t.names := by
  unfold Table.names Table.dropColumn Naming.drop
  rw [map_map, map_map]
  exact map_congr_left fun a _ => liveName_drop name a

theorem names_addColumn {a : Attribute δ} (h : a.attisdropped = false) (t : Table δ) :
    (t.addColumn a).names = t.names ++ [some a.attname] := by
  simp [Table.names, Table.addColumn, Attribute.liveName, h]

/-- A rename reaches every name but the retention's. -/
theorem followed_renameColumn (old new : String) (t : Table δ) :
    (t.renameColumn old new).followed = t.followed.map (Ref.rename old new) := by
  unfold Table.followed Table.renameColumn renameDeclaredSortByColumn
  simp only [map_append, map_flatMap, flatMap_map]
  congr 1
  · congr 1
    · congr 1
      · cases t.mark <;> rfl
      · cases t.options.sortBy <;> rfl
    · cases t.options.sketchColumns <;> rfl

theorem refTrue_ref (t : Table δ) (name : String) : RefTrue t (t.ref name) := fun _ h => h

theorem getAttnum_lt {name : String} {i : ℕ} (h : t.getAttnum name = some i) :
    i < t.attrs.length := by
  have hlt := Naming.lookup_lt h
  rwa [Table.names, length_map] at hlt

/-! ### Rows in the order of a key -/

section Order

variable [Inhabited δ] {cmp : ℕ → δ → δ → ℤ}

theorem keyCmp_congr {keys : List ℕ} (h : ∀ i ∈ keys, t'.columnCmp cmp i = t.columnCmp cmp i) :
    t'.keyCmp cmp keys = t.keyCmp cmp keys := by
  induction keys with
  | nil => rfl
  | cons i is ih =>
    simp only [Table.keyCmp]
    rw [h i mem_cons_self, ih fun j hj => h j (mem_cons_of_mem _ hj)]

theorem keyCmp_append (l l' : List ℕ) (r r' : List δ) :
    t.keyCmp cmp (l ++ l') r r' = Compare.lex (t.keyCmp cmp l) (t.keyCmp cmp l') r r' := by
  induction l with
  | nil => simp [Table.keyCmp, Compare.lex]
  | cons i is ih =>
    simp only [cons_append, Table.keyCmp, Compare.lex]
    split
    · rw [ih]
      rfl
    · rfl

variable {r r' : List δ}

/-- Rows in the order of a key are in that of a prefix. -/
theorem keyCmp_prefix {l l' : List ℕ} (h : t.keyCmp cmp (l ++ l') r r' ≤ 0) :
    t.keyCmp cmp l r r' ≤ 0 := by
  rw [keyCmp_append] at h
  exact Compare.lex_nonpos h

theorem columnCmp_of_keyCmp {l : List ℕ} (h : t.keyCmp cmp l r r' = 0) {i : ℕ}
    (hi : i ∈ l) : t.columnCmp cmp i r r' = 0 := by
  induction l with
  | nil => cases hi
  | cons j js ih =>
    obtain ⟨hj, hjs⟩ := Compare.lex_eq_zero.mp h
    rcases mem_cons.mp hi with rfl | hi
    · exact hj
    · exact ih hjs hi

/-- A column that does not decide can be left out. -/
theorem keyCmp_skip {l l' : List ℕ} {i : ℕ}
    (hi : t.keyCmp cmp l r r' = 0 → t.columnCmp cmp i r r' = 0)
    (h : t.keyCmp cmp (l ++ i :: l') r r' ≤ 0) : t.keyCmp cmp (l ++ l') r r' ≤ 0 := by
  rw [keyCmp_append] at h ⊢
  unfold Compare.lex at h ⊢
  split
  · next hzero =>
    rw [if_pos hzero] at h
    simpa only [Table.keyCmp, Compare.lex, hi hzero, if_true] using h
  · next hne => rwa [if_neg hne] at h

variable {hasLt : ℕ → Bool} {q : Query δ}

/-- **Rows in the order of a recorded key are in the order claimed for it.** -/
theorem keyCmp_pathkeysFrom {refs : List Ref} (href : ∀ ref ∈ refs, RefTrue t ref)
    (hconst : ∀ i c, q.eclass i = some c → q.redundant c = true → t.columnCmp cmp i r r' = 0)
    (hequal : ∀ i j c, q.eclass i = some c → q.eclass j = some c →
      t.columnCmp cmp i r r' = 0 → t.columnCmp cmp j r r' = 0) {pathkeys : List ℕ}
    (h : t.keyCmp cmp (pathkeys ++ refs.filterMap Ref.attnum) r r' ≤ 0) :
    t.keyCmp cmp (pathkeysFrom hasLt q t pathkeys refs) r r' ≤ 0 := by
  induction refs generalizing pathkeys with
  | nil => exact keyCmp_prefix h
  | cons ref refs ih =>
    have htail := fun ref' h' => href ref' (mem_cons_of_mem _ h')
    unfold pathkeysFrom
    split
    · exact keyCmp_prefix h
    · next i hi =>
      -- the name means the column that the rows were sorted on
      rw [filterMap_cons, href ref mem_cons_self i hi] at h
      split
      · split
        · exact keyCmp_prefix h
        · next c hc =>
          split
          · next hskip =>
            refine ih htail (keyCmp_skip (fun hzero => ?_) h)
            rcases hskip with hred | hmem
            · exact hconst i c hc hred
            · obtain ⟨j, hj, hjc⟩ := mem_map.mp hmem
              exact hequal j i c hjc hc (columnCmp_of_keyCmp hzero hj)
          · refine ih htail ?_
            rwa [append_assoc]
      · exact keyCmp_prefix h

/-! ### The invariant -/

/-- The rows of the groups of a run. -/
def Table.inRun (t : Table δ) (m : Mark) : List (List δ) :=
  (t.groups.filter fun g => m.sortedFrom ≤ g.number ∧ g.number ≤ m.sortedThrough).flatMap Group.rows

structure TableInv (cmp : ℕ → δ → δ → ℤ) (t : Table δ) : Prop where
  distinct : Naming.Distinct t.names
  resolves : ∀ ref ∈ t.refs, RefTrue t ref
  bound : ∀ m ∈ t.mark, ∀ ref ∈ m.sortedBy, ∀ i, ref.attnum = some i → i < t.attrs.length
  ascending : t.groups.Pairwise fun g g' => g.number < g'.number
  below : ∀ g ∈ t.groups, g.number < t.nextGroup
  through : ∀ m ∈ t.mark, m.sortedThrough < t.nextGroup
  sorted : ∀ m ∈ t.mark, m.kind = .lexicographic →
    (t.inRun m).Pairwise fun r r' => t.keyCmp cmp (m.sortedBy.filterMap Ref.attnum) r r' ≤ 0

/-- When the first group and the last are of the run, all are. -/
theorem TableInv.inRun_eq (h : TableInv cmp t) {m : Mark} {first last : Group δ}
    (hfirst : t.groups.head? = some first) (hlast : t.groups.getLast? = some last)
    (hfrom : m.sortedFrom ≤ first.number) (hthrough : last.number ≤ m.sortedThrough) :
    t.inRun m = t.rows := by
  unfold Table.inRun Table.rows
  rw [filter_eq_self.mpr]
  intro g hg
  have hle : first.number ≤ g.number := by
    obtain ⟨rest, hrest⟩ := head?_eq_some_iff.mp hfirst
    have hasc := h.ascending
    rw [hrest] at hg hasc
    rcases mem_cons.mp hg with rfl | hg
    · exact le_rfl
    · exact (rel_of_pairwise_cons hasc hg).le
  have hge : g.number ≤ last.number := by
    obtain ⟨front, hfront⟩ := getLast?_eq_some_iff.mp hlast
    have hasc := h.ascending
    rw [hfront] at hg hasc
    rcases mem_append.mp hg with hg | hg
    · exact ((pairwise_append.mp hasc).2.2 g hg last (mem_singleton_self _)).le
    · rw [mem_singleton.mp hg]
  simpa using ⟨hfrom.trans hle, hge.trans hthrough⟩

theorem TableInv.denotes (h : TableInv cmp t) : Denotes hasLt cmp t where
  resolves := h.resolves
  order enabled q hq := by
    have hnone : (t.rows.filter q.keep).Pairwise fun r r' => t.keyCmp cmp [] r r' ≤ 0 :=
      pairwise_of_forall fun _ _ => le_rfl
    unfold sortedPathkeys
    split
    · next m first last hm hfirst hlast =>
      split
      · next hclaim =>
        obtain ⟨-, hkind, hfrom, hthrough⟩ := hclaim
        have hsorted := h.sorted m hm hkind
        rw [h.inRun_eq hfirst hlast hfrom hthrough] at hsorted
        refine ((hsorted.filter q.keep).imp_of_mem fun {r r'} hr hr' hle => ?_)
        obtain ⟨hr, hkeep⟩ := mem_filter.mp hr
        obtain ⟨hr', hkeep'⟩ := mem_filter.mp hr'
        have href : ∀ ref ∈ m.sortedBy, RefTrue t ref := by
          intro ref href
          refine h.resolves ref (mem_append_left _ ?_)
          unfold Table.followed
          rw [show t.mark = some m from hm]
          simp [href]
        have hclaimed : t.keyCmp cmp (pathkeysFrom hasLt q t [] m.sortedBy) r r' ≤ 0 :=
          keyCmp_pathkeysFrom href
            (fun i c hc hred => hq.const i c hc hred r hr r' hr' hkeep hkeep')
            (fun i j c hi hj => hq.equal i j c hi hj r hr r' hr' hkeep hkeep') hle
        rw [← take_append_drop q.useful (pathkeysFrom hasLt q t [] m.sortedBy)] at hclaimed
        exact keyCmp_prefix hclaimed
      · exact hnone
    · exact hnone
  retention i hi := by
    unfold expireColumn at hi
    split at hi
    · next ref interval href _ =>
      refine ⟨ref, href, h.resolves ref (mem_append_right _ ?_) i hi⟩
      simp [href]
    · cases hi

/-! ### The three statements -/

/-- A statement that changes the columns of a table and the names kept for it, and leaves the
rows and their order alone. -/
theorem TableInv.alter (h : TableInv cmp t) (hgroups : t'.groups = t.groups)
    (hnext : t'.nextGroup = t.nextGroup) (hlen : t.attrs.length ≤ t'.attrs.length)
    (hcolumn : ∀ i < t.attrs.length, t'.columnCmp cmp i = t.columnCmp cmp i)
    (hmark : ∀ m' ∈ t'.mark, ∃ m ∈ t.mark, m'.sortedFrom = m.sortedFrom ∧
      m'.sortedThrough = m.sortedThrough ∧ m'.kind = m.kind ∧
      m'.sortedBy.map Ref.attnum = m.sortedBy.map Ref.attnum)
    (hdistinct : Naming.Distinct t'.names) (hresolves : ∀ ref ∈ t'.refs, RefTrue t' ref) :
    TableInv cmp t' where
  distinct := hdistinct
  resolves := hresolves
  bound m' hm' ref href i hi := by
    obtain ⟨m, hm, -, -, -, hrefs⟩ := hmark m' hm'
    have hmem : some i ∈ m.sortedBy.map Ref.attnum := by
      rw [← hrefs, ← hi]
      exact mem_map_of_mem href
    obtain ⟨ref', href', hi'⟩ := mem_map.mp hmem
    exact (h.bound m hm ref' href' i hi').trans_le hlen
  ascending := by
    rw [hgroups]
    exact h.ascending
  below := by
    rw [hgroups, hnext]
    exact h.below
  through m' hm' := by
    obtain ⟨m, hm, -, hthrough, -, -⟩ := hmark m' hm'
    rw [hthrough, hnext]
    exact h.through m hm
  sorted m' hm' hkind := by
    obtain ⟨m, hm, hfrom, hthrough, hkind', hrefs⟩ := hmark m' hm'
    have hkeys : m'.sortedBy.filterMap Ref.attnum = m.sortedBy.filterMap Ref.attnum := by
      have hid := congrArg (List.filterMap id) hrefs
      simpa [filterMap_map] using hid
    have hcmp : t'.keyCmp cmp (m.sortedBy.filterMap Ref.attnum) =
        t.keyCmp cmp (m.sortedBy.filterMap Ref.attnum) := by
      refine keyCmp_congr fun i hi => hcolumn i ?_
      obtain ⟨ref, href, hri⟩ := mem_filterMap.mp hi
      exact h.bound m hm ref href i hri
    have hrun : t'.inRun m' = t.inRun m := by
      unfold Table.inRun
      rw [hgroups, hfrom, hthrough]
    rw [hkeys, hcmp, hrun]
    exact h.sorted m hm (hkind' ▸ hkind)

/-- The values and the types of columns do not depend on their names. -/
theorem columnCmp_map {f : Attribute δ → Attribute δ} (hmissing : ∀ a, (f a).missing = a.missing)
    (htype : ∀ a, (f a).atttypid = a.atttypid) (hattrs : t'.attrs = t.attrs.map f) (i : ℕ) :
    t'.columnCmp cmp i = t.columnCmp cmp i := by
  have hm : t'.attrs[i]?.map Attribute.missing = t.attrs[i]?.map Attribute.missing := by
    rw [hattrs, getElem?_map, Option.map_map]
    congr 1
    funext a
    exact hmissing a
  have ht : t'.attrs[i]?.map Attribute.atttypid = t.attrs[i]?.map Attribute.atttypid := by
    rw [hattrs, getElem?_map, Option.map_map]
    congr 1
    funext a
    exact htype a
  funext r r'
  simp only [Table.columnCmp, Table.typeOf, Table.value, hm, ht]

theorem attnum_rename (old new : String) (ref : Ref) :
    (ref.rename old new).attnum = ref.attnum := by
  unfold Ref.rename
  split <;> rfl

/-- **A rename** to a name that no catalog holds for another column. -/
theorem tableInv_renameColumn (h : TableInv cmp t) {old new : String}
    (hold : (t.getAttnum old).isSome = true) (hnew : t.getAttnum new = none)
    (hok : ∀ ref ∈ t.refs, ref.name = new → ref.attnum = t.getAttnum old) :
    TableInv cmp (t.renameColumn old new) := by
  have hne : old ≠ new := by
    intro heq
    rw [heq, hnew] at hold
    cases hold
  have hfound : ∀ name, (t.renameColumn old new).getAttnum name =
      Naming.lookup (Naming.rename old new t.names) name := by
    intro name
    unfold Table.getAttnum
    rw [names_renameColumn]
  -- whatever holds the new name holds it for the renamed column
  have htaken : ∀ ref : Ref, ref.attnum = t.getAttnum old → ref.name = new →
      RefTrue (t.renameColumn old new) ref := by
    intro ref hatt hname i hi
    rw [hfound, hname, Naming.lookup_rename_new h.distinct hnew] at hi
    rw [hatt]
    exact hi
  have hother : ∀ ref ∈ t.refs, ref.name ≠ old → RefTrue (t.renameColumn old new) ref := by
    intro ref href hname
    by_cases heq : ref.name = new
    · exact htaken ref (hok ref href heq) heq
    · intro i hi
      rw [hfound, Naming.lookup_rename_of_ne h.distinct hnew hname heq] at hi
      exact h.resolves ref href i hi
  refine h.alter rfl rfl (by simp [Table.renameColumn]) (fun i _ => ?_) ?_ ?_ ?_
  · refine columnCmp_map (f := Attribute.rename old new) ?_ ?_ rfl i
    all_goals
      intro a
      unfold Attribute.rename
      split <;> rfl
  · intro m' hm'
    obtain ⟨m, hm, rfl⟩ := Option.map_eq_some_iff.mp hm'
    refine ⟨m, hm, rfl, rfl, rfl, ?_⟩
    simp only [renameSortKeyColumn, map_map]
    exact map_congr_left fun ref _ => attnum_rename old new ref
  · rw [names_renameColumn]
    exact h.distinct.rename hnew
  · intro ref href
    rcases mem_append.mp href with href | href
    · rw [followed_renameColumn] at href
      obtain ⟨ref, hfollowed, rfl⟩ := mem_map.mp href
      have hmem : ref ∈ t.refs := mem_append_left _ hfollowed
      by_cases heq : ref.name = old
      · -- the name follows the column
        have hren : ref.rename old new = ⟨new, ref.attnum⟩ := by simp [Ref.rename, heq]
        rw [hren]
        intro i hi
        rw [hfound, Naming.lookup_rename_new h.distinct hnew] at hi
        exact h.resolves ref hmem i (heq ▸ hi)
      · have hren : ref.rename old new = ref := by simp [Ref.rename, heq]
        rw [hren]
        exact hother ref hmem heq
    · have hmem : ref ∈ t.refs := mem_append_right _ href
      by_cases heq : ref.name = old
      · -- the retention's name stays behind, and means nothing
        intro i hi
        rw [hfound, heq, Naming.lookup_rename_old hne] at hi
        cases hi
      · exact hother ref hmem heq

theorem tableInv_dropColumn (h : TableInv cmp t) (name : String) :
    TableInv cmp (t.dropColumn name) := by
  refine h.alter rfl rfl (by simp [Table.dropColumn]) (fun i _ => ?_) ?_ ?_ ?_
  · refine columnCmp_map (f := Attribute.drop name) ?_ ?_ rfl i
    all_goals
      intro a
      unfold Attribute.drop
      split <;> rfl
  · exact fun m hm => ⟨m, hm, rfl, rfl, rfl, rfl⟩
  · rw [names_dropColumn]
    exact h.distinct.drop name
  · intro ref href i hi
    unfold Table.getAttnum at hi
    rw [names_dropColumn, Naming.lookup_drop h.distinct] at hi
    split_ifs at hi
    exact h.resolves ref href i hi

/-- **A column added** under a name that no catalog holds. -/
theorem tableInv_addColumn (h : TableInv cmp t) {a : Attribute δ} (hlive : a.attisdropped = false)
    (hnew : t.getAttnum a.attname = none) (hok : ∀ ref ∈ t.refs, ref.name ≠ a.attname) :
    TableInv cmp (t.addColumn a) := by
  refine h.alter rfl rfl (by simp [Table.addColumn]) ?_ ?_ ?_ ?_
  · intro i hi
    funext r r'
    simp only [Table.columnCmp, Table.typeOf, Table.value, Table.addColumn]
    rw [getElem?_append_left hi]
  · exact fun m hm => ⟨m, hm, rfl, rfl, rfl, rfl⟩
  · rw [names_addColumn hlive]
    exact h.distinct.append hnew
  · intro ref href i hi
    unfold Table.getAttnum at hi
    rw [names_addColumn hlive, Naming.lookup_append h.distinct hnew, if_neg (hok ref href)] at hi
    exact h.resolves ref href i hi

/-! ### The other steps -/

/-- A step that changes only which names are kept for the table, each of them one that was kept
or one that is recorded now. -/
theorem TableInv.record (h : TableInv cmp t) (hattrs : t'.attrs = t.attrs)
    (hgroups : t'.groups = t.groups) (hnext : t'.nextGroup = t.nextGroup) (hmark : t'.mark = t.mark)
    (hrefs : ∀ ref ∈ t'.refs, ref ∈ t.refs ∨ RefTrue t ref) : TableInv cmp t' := by
  have hnames : t'.names = t.names := by
    unfold Table.names
    rw [hattrs]
  refine h.alter hgroups hnext (by rw [hattrs]) (fun i _ => ?_) ?_ ?_ ?_
  · funext r r'
    simp only [Table.columnCmp, Table.typeOf, Table.value, hattrs]
  · rw [hmark]
    exact fun m hm => ⟨m, hm, rfl, rfl, rfl, rfl⟩
  · rw [hnames]
    exact h.distinct
  · intro ref href i hi
    unfold Table.getAttnum at hi
    rw [hnames] at hi
    rcases hrefs ref href with hold | hnew
    · exact h.resolves ref hold i hi
    · exact hnew i hi

omit [Inhabited δ] in
theorem newGroups_cons (first : ℕ) (rows : List (List δ)) (chunks : List (List (List δ))) :
    Table.newGroups first (rows :: chunks) = ⟨first, rows⟩ ::
      Table.newGroups (first + 1) chunks := by
  simp [Table.newGroups, mapIdx_cons, add_assoc, add_comm 1]

omit [Inhabited δ] in
theorem mem_newGroups {first : ℕ} {chunks : List (List (List δ))} {g : Group δ}
    (h : g ∈ Table.newGroups first chunks) : first ≤ g.number ∧
      g.number < first + chunks.length := by
  obtain ⟨i, hi, rfl⟩ := mem_mapIdx.mp h
  exact ⟨Nat.le_add_right _ _, Nat.add_lt_add_left hi _⟩

omit [Inhabited δ] in
theorem newGroups_ascending (first : ℕ) (chunks : List (List (List δ))) :
    (Table.newGroups first chunks).Pairwise fun g g' => g.number < g'.number := by
  induction chunks generalizing first with
  | nil => exact List.Pairwise.nil
  | cons rows chunks ih =>
    rw [newGroups_cons]
    exact (ih (first + 1)).cons fun g hg => (mem_newGroups hg).1

omit [Inhabited δ] in
theorem newGroups_rows (first : ℕ) (chunks : List (List (List δ))) :
    (Table.newGroups first chunks).flatMap Group.rows = chunks.flatten := by
  induction chunks generalizing first with
  | nil => rfl
  | cons rows chunks ih => rw [newGroups_cons, flatMap_cons, ih, flatten_cons]

section Rewrite

variable [DecidableEq δ] {online : Bool} {kind : Sorted.Kind} {key : Option (List String)}
  {kept : List ℕ} {chunks : List (List (List δ))} {names : List String}

omit [DecidableEq δ] in
/-- The groups that a rewrite keeps. -/
theorem TableInv.keptGroups (h : TableInv cmp t) (online : Bool) (kept : List ℕ) :
    (if online then t.groups.filter fun g => g.number ∈ kept else []).Pairwise
        (fun g g' => g.number < g'.number) ∧
      ∀ g ∈ (if online then t.groups.filter fun g => g.number ∈ kept else []),
        g.number < if online then t.nextGroup else 1 := by
  cases online with
  | true => exact ⟨h.ascending.filter _, fun g hg => h.below g (mem_filter.mp hg).1⟩
  | false => exact ⟨List.Pairwise.nil, fun g hg => absurd hg not_mem_nil⟩

omit [Inhabited δ] [DecidableEq δ] in
theorem refs_rewrite {ref : Ref} (href : ref ∈ (t.rewrite online kind names kept chunks).refs) :
    ref ∈ t.refs ∨ RefTrue t ref := by
  have hmark : ∀ ref ∈ (t.rewrite online kind names kept chunks).mark.elim [] Mark.sortedBy,
      ref ∈ t.mark.elim [] Mark.sortedBy ∨ RefTrue t ref := by
    intro ref href
    unfold Table.rewrite at href
    dsimp only at href
    split at href
    · split at href
      · exact .inl href
      · cases href
    · obtain ⟨name, -, rfl⟩ := mem_map.mp href
      exact .inr (refTrue_ref t name)
  unfold Table.refs Table.followed at href ⊢
  simp only [mem_append] at href ⊢
  rcases href with (((href | href) | href) | href) | href
  · exact (hmark ref href).imp_left fun h => .inl (.inl (.inl (.inl h)))
  · exact .inl (.inl (.inl (.inl (.inr href))))
  · exact .inl (.inl (.inl (.inr href)))
  · exact .inl (.inl (.inr href))
  · exact .inl (.inr href)

/-- **A rewrite** marks the run that it wrote. -/
theorem tableInv_rewrite (h : TableInv cmp t) {hasLt : ℕ → Bool}
    (hok : t.rewrites hasLt cmp online kind key kept chunks = true) :
    TableInv cmp (t.rewrite online kind (t.rewriteKey key) kept chunks) := by
  obtain ⟨hasc, hbelow⟩ := h.keptGroups online kept
  have hcolumn : ∀ keys, (t.rewrite online kind (t.rewriteKey key) kept chunks).keyCmp cmp keys =
      t.keyCmp cmp keys := fun keys => keyCmp_congr fun _ _ => rfl
  unfold Table.rewrites at hok
  simp only [Bool.and_eq_true, Bool.or_eq_true, decide_eq_true_eq] at hok
  obtain ⟨-, hsorted⟩ := hok
  refine ⟨h.distinct, ?_, ?_, ?_, ?_, ?_, ?_⟩
  · intro ref href i hi
    rcases refs_rewrite href with hold | hnew
    · exact h.resolves ref hold i hi
    · exact hnew i hi
  · intro m hm ref href i hi
    unfold Table.rewrite at hm
    dsimp only at hm
    split at hm
    · split at hm
      · exact h.bound m hm ref href i hi
      · cases hm
    · cases hm
      obtain ⟨name, -, rfl⟩ := mem_map.mp href
      exact getAttnum_lt hi
  · refine pairwise_append.mpr ⟨hasc, newGroups_ascending _ _, fun g hg g' hg' => ?_⟩
    exact (hbelow g hg).trans_le (mem_newGroups hg').1
  · intro g hg
    rcases mem_append.mp hg with hg | hg
    · exact (hbelow g hg).trans_le (Nat.le_add_right _ _)
    · exact (mem_newGroups hg).2
  · intro m hm
    show _ < (if online then t.nextGroup else 1) + chunks.length
    unfold Table.rewrite at hm
    dsimp only at hm
    split at hm
    · next hnil =>
      obtain ⟨honline, hm⟩ := Option.ite_none_right_eq_some.mp hm
      rw [if_pos honline]
      exact (h.through m hm).trans_le (Nat.le_add_right _ _)
    · next hne =>
      cases hm
      have hpos : 0 < chunks.length := length_pos_iff.mpr hne
      dsimp only
      omega
  · intro m hm hkind
    rw [hcolumn]
    unfold Table.rewrite at hm
    dsimp only at hm
    split at hm
    · next hnil =>
      obtain ⟨honline, hm⟩ := Option.ite_none_right_eq_some.mp hm
      -- the marked run keeps some of its groups
      refine (h.sorted m hm hkind).sublist ?_
      unfold Table.inRun Table.rewrite
      subst hnil honline
      show (((t.groups.filter _ ++ []).filter _).flatMap Group.rows).Sublist _
      rw [append_nil]
      exact (List.Sublist.filter _ filter_sublist).flatMap _
    · next hne =>
      cases hm
      have hpos : 0 < chunks.length := length_pos_iff.mpr hne
      have hrun : (t.rewrite online kind (t.rewriteKey key) kept chunks).inRun
          ⟨if online then t.nextGroup else 1,
            (if online then t.nextGroup else 1) + chunks.length - 1,
            (t.rewriteKey key).map t.ref, kind⟩ = chunks.flatten := by
        unfold Table.inRun Table.rewrite
        rw [filter_append, flatMap_append, filter_eq_nil_iff.mpr, flatMap_nil,
          nil_append, filter_eq_self.mpr, newGroups_rows]
        · intro g hg
          obtain ⟨hge, hlt⟩ := mem_newGroups hg
          simp only [decide_eq_true_eq]
          omega
        · intro g hg
          have hlt := hbelow g hg
          simp only [decide_eq_true_eq]
          omega
      rw [hrun]
      have hrefs : ((t.rewriteKey key).map t.ref).filterMap Ref.attnum =
          (t.rewriteKey key).filterMap t.getAttnum := by
        rw [filterMap_map]
        rfl
      rw [hrefs]
      rcases hsorted with hcurve | ⟨-, hsorted⟩
      · exact absurd hkind hcurve
      · exact hsorted

end Rewrite

/-- New storage has no run, and the names in the other catalogs stay. -/
theorem tableInv_replaceFile (h : TableInv cmp t) (chunks : List (List (List δ))) :
    TableInv cmp (t.replaceFile chunks) where
  distinct := h.distinct
  resolves ref href := by
    refine h.resolves ref ?_
    simp only [Table.refs, Table.followed, Table.replaceFile, mem_append] at href ⊢
    exact href.imp_left fun hf => hf.imp_left fun hs => hs.imp_left fun ho =>
      ho.imp_left fun hnil => absurd hnil not_mem_nil
  bound m hm := by cases hm
  ascending := newGroups_ascending _ _
  below g hg := (mem_newGroups hg).2
  through m hm := by cases hm
  sorted m hm := by cases hm

theorem tableInv_insert (h : TableInv cmp t) (rows : List (List δ)) :
    TableInv cmp { t with
      groups := t.groups ++ [⟨t.nextGroup, rows⟩], nextGroup := t.nextGroup + 1 } := by
  refine ⟨h.distinct, h.resolves, h.bound, ?_, ?_, ?_, ?_⟩
  · refine pairwise_append.mpr ⟨h.ascending, pairwise_singleton _ _, fun g hg g' hg' => ?_⟩
    rw [mem_singleton.mp hg']
    exact h.below g hg
  · intro g hg
    rcases mem_append.mp hg with hg | hg
    · exact (h.below g hg).trans (lt_succ_self _)
    · rw [mem_singleton.mp hg]
      exact lt_succ_self _
  · exact fun m hm => (h.through m hm).trans (lt_succ_self _)
  · intro m hm hkind
    -- the new group is behind the marked run
    have hthrough := h.through m hm
    have hrun : Table.inRun { t with
        groups := t.groups ++ [⟨t.nextGroup, rows⟩], nextGroup := t.nextGroup + 1 } m =
        t.inRun m := by
      unfold Table.inRun
      rw [filter_append, filter_cons_of_neg, filter_nil, append_nil]
      simp only [decide_eq_true_eq]
      omega
    have hcmp : ∀ keys, Table.keyCmp { t with
        groups := t.groups ++ [⟨t.nextGroup, rows⟩], nextGroup := t.nextGroup + 1 } cmp keys =
        t.keyCmp cmp keys := fun keys => keyCmp_congr fun _ _ => rfl
    rw [hrun, hcmp]
    exact h.sorted m hm hkind

theorem tableInv_setOptions (h : TableInv cmp t) (sortBy sketchColumns : Option (List String))
    (ttlColumn : Option String) (ttlInterval : Option ℕ) :
    TableInv cmp (t.setOptions sortBy sketchColumns ttlColumn ttlInterval) := by
  refine h.record rfl rfl rfl rfl fun ref href => ?_
  have hlist : ∀ (names : Option (List String)) (old : Option (List Ref)),
      ref ∈ ((names.map (List.map t.ref)) <|> old).getD [] → ref ∈ old.getD [] ∨ RefTrue t ref := by
    intro names old hmem
    cases names with
    | none => exact .inl hmem
    | some names =>
      obtain ⟨name, -, rfl⟩ := mem_map.mp hmem
      exact .inr (refTrue_ref t name)
  have hone : ref ∈ ((ttlColumn.map t.ref) <|> t.options.ttlColumn).toList →
      ref ∈ t.options.ttlColumn.toList ∨ RefTrue t ref := by
    intro hmem
    cases ttlColumn with
    | none => exact .inl hmem
    | some name =>
      rw [mem_singleton.mp hmem]
      exact .inr (refTrue_ref t name)
  unfold Table.refs Table.followed at href ⊢
  simp only [mem_append] at href ⊢
  rcases href with (((href | href) | href) | href) | href
  · exact .inl (.inl (.inl (.inl (.inl href))))
  · exact (hlist _ _ href).imp_left fun hold => .inl (.inl (.inl (.inr hold)))
  · exact (hlist _ _ href).imp_left fun hold => .inl (.inl (.inr hold))
  · exact .inl (.inl (.inr href))
  · exact (hone href).imp_left .inr

theorem tableInv_resetOptions (h : TableInv cmp t) (sortBy sketchColumns : Bool) :
    TableInv cmp (t.resetOptions sortBy sketchColumns) := by
  refine h.record rfl rfl rfl rfl fun ref href => .inl ?_
  have hlist : ∀ (reset : Bool) (old : Option (List Ref)),
      ref ∈ (if reset then none else old).getD [] → ref ∈ old.getD [] := by
    intro reset old hmem
    cases reset with
    | true => cases hmem
    | false => exact hmem
  unfold Table.refs Table.followed at href ⊢
  simp only [mem_append] at href ⊢
  rcases href with (((href | href) | href) | href) | href
  · exact .inl (.inl (.inl (.inl href)))
  · exact .inl (.inl (.inl (.inr (hlist _ _ href))))
  · exact .inl (.inl (.inr (hlist _ _ href)))
  · exact .inl (.inr href)
  · exact .inr href

/-- Declarations of which some went and some are recorded now. -/
theorem TableInv.declare (h : TableInv cmp t) {projections : List Projection}
    {declarations : List Declaration} (hdecl : ∀ d ∈ declarations,
      d ∈ t.declarations ∨ ∀ ref ∈ d.columns ++ d.sortKey, RefTrue t ref) :
    TableInv cmp { t with projections := projections, declarations := declarations } := by
  refine h.record rfl rfl rfl rfl fun ref href => ?_
  unfold Table.refs Table.followed at href ⊢
  simp only [mem_append] at href ⊢
  rcases href with (href | href) | href
  · exact .inl (.inl (.inl href))
  · obtain ⟨d, hd, hmem⟩ := mem_flatMap.mp href
    rcases hdecl d hd with hold | hnew
    · exact .inl (.inl (.inr (mem_flatMap.mpr ⟨d, hold, hmem⟩)))
    · exact .inr (hnew ref hmem)
  · exact .inl (.inr href)

theorem tableInv_addProjection (h : TableInv cmp t) (name : String)
    (columns sortKey : List String) :
    TableInv cmp (t.addProjection name columns sortKey) := by
  refine h.declare fun d hd => ?_
  rcases mem_append.mp hd with hd | hd
  · exact .inl (mem_filter.mp hd).1
  · rw [mem_singleton.mp hd]
    refine .inr fun ref href => ?_
    rcases mem_append.mp href with href | href
    all_goals
      obtain ⟨name, -, rfl⟩ := mem_map.mp href
      exact refTrue_ref t name

theorem tableInv_create {attrs : List (Attribute δ)} (h : (attrs.map Attribute.attname).Nodup) :
    TableInv cmp ⟨attrs, [], 1, none, ⟨none, none, none, none⟩, [], []⟩ where
  distinct := by
    intro i j n hi hj
    have hname : ∀ i : ℕ, (attrs.map Attribute.liveName)[i]? = some (some n) →
        (attrs.map Attribute.attname)[i]? = some n := by
      intro i hi
      rw [getElem?_map, Option.map_eq_some_iff] at hi ⊢
      obtain ⟨a, ha, hn⟩ := hi
      refine ⟨a, ha, ?_⟩
      unfold Attribute.liveName at hn
      split_ifs at hn
      exact Option.some.inj hn
    have hi' := hname i hi
    obtain ⟨hlt, -⟩ := List.getElem?_eq_some_iff.mp hi'
    exact (getElem?_inj hlt h).mp (hi'.trans (hname j hj).symm)
  resolves ref href := absurd href not_mem_nil
  bound m hm := by cases hm
  ascending := List.Pairwise.nil
  below g hg := absurd hg not_mem_nil
  through m hm := by cases hm
  sorted m hm := by cases hm

/-! ### Runs -/

variable [DecidableEq δ] {hasLt : ℕ → Bool} {db db' : Database δ}

/-- Every columnar table is as it should be. -/
def Inv (cmp : ℕ → δ → δ → ℤ) (db : Database δ) : Prop := ∀ rel t, db rel = some t → TableInv cmp t

omit [DecidableEq δ] in
theorem inv_alter (h : Inv cmp db) {rels : List ℕ} {ok : Table δ → Bool} {f : Table δ → Table δ}
    (hkeep : ∀ rel ∈ rels, ∀ t, db rel = some t → ok t = true → TableInv cmp (f t))
    (hstep : db.alter rels ok f = some db') : Inv cmp db' := by
  unfold Database.alter at hstep
  rw [Option.ite_none_right_eq_some, all_eq_true] at hstep
  obtain ⟨hall, hdb⟩ := hstep
  cases hdb
  intro rel t' ht'
  dsimp only at ht'
  split at ht'
  · next hrel =>
    obtain ⟨t, ht, rfl⟩ := Option.map_eq_some_iff.mp ht'
    have hok := hall rel hrel
    rw [ht] at hok
    exact hkeep rel hrel t ht hok
  · exact h rel t' ht'

/-- **A benign statement keeps the names.** -/
theorem inv_step (h : Inv cmp db) (a : Action δ) (hok : Benign db a)
    (hstep : step hasLt cmp db a = some db') : Inv cmp db' := by
  cases a with
  | create rel attrs =>
    simp only [step, Option.ite_none_right_eq_some, Option.some.injEq] at hstep
    obtain ⟨-, ⟨hnodup, -⟩, rfl⟩ := hstep
    intro rel' t ht
    dsimp only at ht
    split at ht
    · cases ht
      exact tableInv_create hnodup
    · exact h rel' t ht
  | addColumn rels attr =>
    simp only [step, Option.ite_none_left_eq_some] at hstep
    obtain ⟨hlive, hstep⟩ := hstep
    refine inv_alter h (fun rel hrel t ht hnew => ?_) hstep
    exact tableInv_addColumn (h rel t ht) (by simpa using hlive) (by simpa using hnew)
      (hok rel hrel t ht)
  | dropColumn kin rels name =>
    simp only [step, Option.ite_none_right_eq_some] at hstep
    exact inv_alter h (fun rel _ t ht _ => tableInv_dropColumn (h rel t ht) name) hstep.2
  | renameColumn kin old new =>
    refine inv_alter h (fun rel hrel t ht hnames => ?_) hstep
    rw [Bool.and_eq_true] at hnames
    exact tableInv_renameColumn (h rel t ht) hnames.1 (by simpa using hnames.2) (hok rel hrel t ht)
  | rewrite rel online kind key kept chunks =>
    exact inv_alter h (fun rel _ t ht hrewrites => tableInv_rewrite (h rel t ht) hrewrites) hstep
  | replaceFile rel chunks =>
    exact inv_alter h (fun rel _ t ht _ => tableInv_replaceFile (h rel t ht) chunks) hstep
  | insert rel rows =>
    exact inv_alter h (fun rel _ t ht _ => tableInv_insert (h rel t ht) rows) hstep
  | setOptions rel sortBy sketchColumns ttlColumn ttlInterval =>
    exact inv_alter h (fun rel _ t ht _ => tableInv_setOptions (h rel t ht) ..) hstep
  | resetOptions rel sortBy sketchColumns =>
    exact inv_alter h (fun rel _ t ht _ => tableInv_resetOptions (h rel t ht) ..) hstep
  | addProjection rel name columns sortKey =>
    exact inv_alter h (fun rel _ t ht _ => tableInv_addProjection (h rel t ht) ..) hstep
  | dropProjection rel name =>
    refine inv_alter h (fun rel _ t ht _ => ?_) hstep
    exact (h rel t ht).declare fun d hd => .inl (mem_filter.mp hd).1

/-- **In a run of benign statements every name keeps its promise.** -/
theorem denotes_of_run {as : List (Action δ)} {rel : ℕ}
    (hok : AllSteps (step hasLt cmp) Benign (fun _ => none) as)
    (hrun : run (step hasLt cmp) (fun _ => none) as = some db) (ht : db rel = some t) :
    Denotes hasLt cmp t := by
  have hstart : Inv cmp (fun _ => none : Database δ) := fun rel t ht => by cases ht
  have hinv : Inv cmp db :=
    run_invariant_of (fun db a db' h hok hstep => inv_step h a hok hstep) hstart hok hrun
  exact (hinv rel t ht).denotes

end Order

/-! ### A name that goes to another column -/

def natCmp (_ : ℕ) (a b : ℕ) : ℤ := (a : ℤ) - b

def intColumn (name : String) : Attribute ℕ := ⟨name, false, false, 23, 0, 0⟩

/-- A table sorted on `a` and `b`, whose `b` is dropped and whose `c` becomes `b`. -/
def nameTaken : List (Action ℕ) :=
  [.create 1 [intColumn "a", intColumn "b", intColumn "c"], .insert 1 [[1, 2, 3], [1, 1, 9]],
    .rewrite 1 false .lexicographic (some ["a", "b"]) [] [[[1, 1, 9], [1, 2, 3]]],
    .dropColumn [1] [1] "b", .renameColumn [1] "c" "b"]

theorem nameTaken_not_denotes :
    ¬ ∀ as db rel t, run (step (fun _ => true) natCmp) (fun _ => none) as = some db →
      db rel = some t → Denotes (fun _ => true) natCmp t := by
  intro h
  have hrun : ∃ db t, run (step (fun _ => true) natCmp) (fun _ => none) nameTaken = some db ∧
      db 1 = some t ∧ (⟨"b", some 1⟩ : Ref) ∈ t.refs ∧ t.getAttnum "b" = some 2 := by
    refine ⟨_, _, rfl, rfl, ?_, rfl⟩
    decide
  obtain ⟨db, t, hdb, ht, hmem, hfound⟩ := hrun
  have hdenoted := (h nameTaken db 1 t hdb ht).resolves _ hmem 2 hfound
  cases hdenoted

/-- A parent and its child, with a retention and a sort key that follow their columns, and a column
that has a value of its own in every row. -/
def namesFollow : List (Action ℕ) :=
  [.create 1 [intColumn "a", intColumn "b"], .create 2 [intColumn "a", intColumn "b"],
    .insert 2 [[2, 5], [1, 7]],
    .rewrite 2 false .lexicographic (some ["a"]) [] [[[1, 7], [2, 5]]],
    .setOptions 2 (some ["a"]) none (some "b") (some 30), .renameColumn [1, 2] "a" "c",
    .dropColumn [1, 2] [1, 2] "b", .addColumn [1, 2] (intColumn "a"),
    .addColumn [2] (intColumn "d"), .replaceFile 2 [[[1, 7, 0, 4], [2, 5, 0, 6]]]]

theorem denotes_of_run_namesFollow :
    ∃ db t, run (step (fun _ => true) natCmp) (fun _ => none) namesFollow = some db ∧
      db 2 = some t ∧ Denotes (fun _ => true) natCmp t := by
  have hrun : ∃ db t, run (step (fun _ => true) natCmp) (fun _ => none) namesFollow = some db ∧
      db 2 = some t := ⟨_, _, rfl, rfl⟩
  obtain ⟨db, t, hdb, ht⟩ := hrun
  exact ⟨db, t, hdb, ht, denotes_of_run (by decide) hdb ht⟩

end PgColumnar.Names
