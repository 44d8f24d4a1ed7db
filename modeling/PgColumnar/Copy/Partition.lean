import PgColumnar.Copy.Ranges
import PgColumnar.Lib.Compare

/-!
# Ranges of whole partitions

The splitter for a range-partitioned target reads the key of every row before the load, and cuts
the file where a later partition begins.  PostgreSQL routes a row to the partition whose upper bound
is the first bound above its key, so that two rows of one partition have the same number of bounds
at or below their keys: their bucket.

A segment begins where the first row of its bucket or a later one does.  A cut between segments
therefore has the smaller buckets in front of it and the others behind it.

## Main definitions

* `Ranges`, `bucket` — the bounds in order, and the partition of a key.
* `Cuts` — the rows of smaller buckets stand in front of the offset of a bucket.

## Main results

* `partitionAlignedOffsets_disjoint` — loaders stay on disjoint partitions.
-/

namespace PgColumnar.Copy

open Bytes Compare List Nat

variable {κ : Type} {t : Target κ} {bounds : List (Bound κ)} {f : File}

/-! ### Routing -/

namespace Target

variable (t) in
/-- `partition_rbound_datum_cmp` of PostgreSQL, for one column. -/
def rboundDatumCmp : Bound κ → κ → ℤ
  | .minvalue, _ => -1
  | .maxvalue, _ => 1
  | .datum d, k => t.cmp d k

variable (t) in
/-- The order of the bounds. -/
def boundLt : Bound κ → Bound κ → Prop
  | .minvalue, b => b ≠ .minvalue
  | .maxvalue, _ => False
  | .datum _, .minvalue => False
  | .datum _, .maxvalue => True
  | .datum d, .datum e => t.cmp d e < 0

variable (t bounds) in
/-- The number of bounds at or below a key. -/
def bucket (k : κ) : ℕ := (bounds.takeWhile fun b => decide (t.rboundDatumCmp b k ≤ 0)).length

variable (t bounds) in
/-- The partition that PostgreSQL routes a key to.  `indexes` has for each bound the partition below
it, if there is one, and none above the last bound. -/
def route (indexes : List (Option ℕ)) (k : κ) : Option ℕ := (indexes[t.bucket bounds k]?).join

variable (t bounds) in
/-- A target that the splitter takes, with its bounds in ascending order. -/
structure Ranges : Prop where
  strategy : t.strategy = .range
  partnatts : t.partnatts = 1
  partattr : t.partattr ≠ 0
  bounds_eq : t.bounds = some bounds
  nonempty : bounds ≠ []
  noDefault : t.defaultIndex = none
  category : t.category = 'N' ∨ t.category = 'D'
  total : TotalCmp t.cmp
  ascending : bounds.Pairwise t.boundLt

end Target

/-- Each partition has one upper bound. -/
def OneEach (indexes : List (Option ℕ)) : Prop :=
  ∀ (i j p : ℕ), indexes[i]? = some (some p) → indexes[j]? = some (some p) → i = j

/-! ### Rows -/

/-- The lines of the scan, each with where it begins. -/
def lines : ℕ → ℕ → List Byte → List (ℕ × List Byte)
  | 0, _, _ => []
  | fuel + 1, off, l =>
    if l = [] then []
    else (off, (getline l).1) :: lines fuel (off + (getline l).1.length) (getline l).2

/-- The key that the scan reads from a line. -/
def Target.lineKey (t : Target κ) (line : List Byte) : Option κ :=
  (skipFields t.keyfield line).bind fun p => t.input (fieldBytes p)

/-- The scan reads the keys of the rows; a row is where it begins, with its key. -/
def Reads (t : Target κ) (f : File) (rows : List (ℕ × κ)) : Prop :=
  (lines (f.size + 1) 0 f.bytes).map (fun l => (l.1, t.lineKey l.2)) = rows.map fun r =>
    (r.1, some r.2)

/-- The row begins in the range. -/
def InRange (offs : List ℕ) (i : ℕ) (r : ℕ × κ) : Prop :=
  (∃ o, offs[i]? = some o ∧ o ≤ r.1) ∧ ∃ o, offs[i + 1]? = some o ∧ r.1 < o

/-! ### The binary search -/

theorem length_takeWhile_eq {α : Type} {p : α → Bool} {l : List α} {n : ℕ}
    (hbelow : ∀ i < n, ∃ a, l[i]? = some a ∧ p a = true)
    (hnot : ∀ a, l[n]? = some a → p a = false) :
    (l.takeWhile p).length = n := by
  induction l generalizing n with
  | nil =>
    cases n with
    | zero => rfl
    | succ n =>
      obtain ⟨a, ha, -⟩ := hbelow 0 (succ_pos n)
      simp at ha
  | cons a l ih =>
    cases n with
    | zero => simp [hnot a rfl]
    | succ n =>
      obtain ⟨b, hb, hpb⟩ := hbelow 0 (succ_pos n)
      obtain rfl : a = b := by simpa using hb
      rw [takeWhile_cons_of_pos hpb, length_cons]
      congr 1
      exact ih (fun i hi => hbelow (i + 1) (succ_lt_succ hi)) hnot

/-- Both compare functions tell the same bounds. -/
theorem boundCmp_nonneg (htotal : TotalCmp t.cmp) (k : κ) (b : Bound κ) :
    0 ≤ t.boundCmp k b ↔ t.rboundDatumCmp b k ≤ 0 := by
  cases b with
  | minvalue | maxvalue => simp [Target.boundCmp, Target.rboundDatumCmp]
  | datum d => exact htotal.le_swap.symm

/-- A key at or above a bound is so for the bounds before it. -/
theorem rboundDatumCmp_mono (htotal : TotalCmp t.cmp) {a b : Bound κ} {k : κ} (hlt : t.boundLt a b)
    (hb : t.rboundDatumCmp b k ≤ 0) : t.rboundDatumCmp a k ≤ 0 := by
  cases a with
  | minvalue => simp [Target.rboundDatumCmp]
  | maxvalue => exact hlt.elim
  | datum d =>
    cases b with
    | minvalue => exact hlt.elim
    | maxvalue => simp [Target.rboundDatumCmp] at hb
    | datum e => exact Int.le_of_lt (htotal.lt_of_lt_of_le hlt hb)

theorem bucketLoop_eq (ht : t.Ranges bounds) {k : κ} {fuel lo hi : ℕ} (hle : lo ≤ hi)
    (hlen : hi ≤ bounds.length) (hfuel : hi - lo < fuel)
    (hbelow : ∀ i < lo, ∃ b, bounds[i]? = some b ∧ t.rboundDatumCmp b k ≤ 0)
    (habove : ∀ i ≥ hi, ∀ b, bounds[i]? = some b → ¬ t.rboundDatumCmp b k ≤ 0) :
    t.bucketLoop bounds k fuel lo hi = t.bucket bounds k := by
  induction fuel generalizing lo hi with
  | zero => omega
  | succ fuel ih =>
    rw [Target.bucketLoop]
    split
    · next hlt =>
      have hmid : (lo + hi) / 2 < bounds.length := by omega
      have hget : bounds[(lo + hi) / 2]? = some bounds[(lo + hi) / 2] := getElem?_eq_getElem hmid
      dsimp only
      rw [hget]
      simp only [boundCmp_nonneg ht.total]
      split
      · next hreach =>
        -- the bounds up to the middle are at or below the key
        refine ih (by omega) hlen (by omega) ?_ habove
        intro i hi'
        have hi'' : i < bounds.length := by omega
        refine ⟨bounds[i], getElem?_eq_getElem hi'', ?_⟩
        rcases Nat.lt_succ_iff_lt_or_eq.mp hi' with hlt' | rfl
        · exact rboundDatumCmp_mono ht.total
            (pairwise_iff_getElem.mp ht.ascending _ _ hi'' hmid hlt') hreach
        · exact hreach
      · next hreach =>
        refine ih (by omega) (by omega) (by omega) hbelow ?_
        intro i hi' b hb hcmp
        obtain ⟨hi'', rfl⟩ := List.getElem?_eq_some_iff.mp hb
        rcases lt_or_eq_of_le hi' with hlt' | rfl
        · exact hreach (rboundDatumCmp_mono ht.total
            (pairwise_iff_getElem.mp ht.ascending _ _ hmid hi'' hlt') hcmp)
        · exact hreach hcmp
    · next hlt =>
      have heq : hi = lo := by omega
      refine (length_takeWhile_eq ?_ ?_).symm
      · intro i hi'
        obtain ⟨b, hb, hcmp⟩ := hbelow i hi'
        exact ⟨b, hb, decide_eq_true hcmp⟩
      · exact fun b hb => decide_eq_false (habove lo (le_of_eq heq) b hb)

theorem partitionBucket_eq (ht : t.Ranges bounds) (k : κ) :
    t.partitionBucket bounds k = t.bucket bounds k := by
  refine bucketLoop_eq ht (zero_le _) (le_refl _) (by omega) nofun ?_
  intro i hi b hb
  obtain ⟨hlt, -⟩ := List.getElem?_eq_some_iff.mp hb
  omega

/-! ### The scan -/

/-- The offset noted for a bucket has the rows of smaller buckets in front of it. -/
def Cuts (t : Target κ) (bounds : List (Bound κ)) (rows : List (ℕ × κ)) (seg : List ℕ) : Prop :=
  ∀ b o, seg[b]? = some o → ∀ r ∈ rows, t.bucket bounds r.2 < b ↔ r.1 < o

/-- The scan after the rows that are `done`. -/
structure Noted (t : Target κ) (bounds : List (Bound κ)) (done : List (ℕ × κ)) (s : Scan) :
    Prop where
  length : s.segStart.length = s.prevBucket + 1
  le : s.prevBucket ≤ bounds.length
  begins : ∀ r ∈ done, r.1 < s.off
  cuts : Cuts t bounds done s.segStart
  bucket : ∀ r ∈ done, t.bucket bounds r.2 ≤ s.prevBucket
  last : s.prevBucket = 0 ∨ ∃ r ∈ done, t.bucket bounds r.2 = s.prevBucket
  starts : ∀ o ∈ s.segStart, o ≤ s.off

/-- A row of the same bucket or a later one. -/
theorem Noted.next {done : List (ℕ × κ)} {s : Scan} (h : Noted t bounds done s) {k : κ} {n : ℕ}
    (hn : 0 < n) (hk : s.prevBucket ≤ t.bucket bounds k) :
    Noted t bounds (done ++ [(s.off, k)])
      { off := s.off + n, prevBucket := t.bucket bounds k
        segStart := s.segStart ++ List.replicate
          (t.bucket bounds k + 1 - s.segStart.length) s.off } where
  length := by
    have hlen := h.length
    simp only [length_append, length_replicate]
    omega
  le := ( takeWhile_prefix _).length_le
  begins r hr := by
    dsimp only
    rcases mem_append.mp hr with hr | hr
    · have hbegin := h.begins r hr
      omega
    · rw [mem_singleton.mp hr]
      dsimp only
      omega
  cuts b o ho r hr := by
    rw [getElem?_append] at ho
    split at ho
    · next hlt =>
      rcases mem_append.mp hr with hr | hr
      · exact h.cuts b o ho r hr
      · -- the bucket has begun before
        have hle := h.starts o (mem_of_getElem? ho)
        have hlen := h.length
        rw [mem_singleton.mp hr]
        dsimp only
        omega
    · next hge =>
      -- the buckets that begin with this row, up to its own
      obtain ⟨hlt, heq⟩ := List.getElem?_eq_some_iff.mp ho
      rw [getElem_replicate] at heq
      rw [length_replicate] at hlt
      have hlen := h.length
      rcases mem_append.mp hr with hr | hr
      · have hbucket := h.bucket r hr
        have hbegin := h.begins r hr
        omega
      · rw [mem_singleton.mp hr]
        dsimp only
        omega
  bucket r hr := by
    rcases mem_append.mp hr with hr | hr
    · exact (h.bucket r hr).trans hk
    · rw [mem_singleton.mp hr]
  last := .inr ⟨_, mem_append_right _ mem_cons_self, rfl⟩
  starts o ho := by
    dsimp only
    rcases mem_append.mp ho with ho | ho
    · have hle := h.starts o ho
      omega
    · rw [eq_of_mem_replicate ho]
      omega

variable {rows : List (ℕ × κ)}

/-- The scan notes where the buckets begin, or stops at a row that belongs before another. -/
theorem scanRows_spec {done : List (ℕ × κ)} (ht : t.Ranges bounds) {fuel : ℕ} {l : List Byte}
    {s : Scan}
    (h : Noted t bounds done s)
    (hrows : (lines fuel s.off l).map (fun l => (l.1, t.lineKey l.2)) = rows.map fun r =>
      (r.1, some r.2)) :
    match scanRows t bounds fuel l s with
    | .ok s' => Noted t bounds (done ++ rows) s' ∧ s'.off ≤ s.off + l.length
    | .error e =>
      ∃ r r', [r, r'].Sublist (done ++ rows) ∧ t.bucket bounds r'.2 < t.bucket bounds r.2 ∧
        e = .notSorted r'.1 := by
  induction fuel generalizing l s done rows with
  | zero =>
    obtain rfl : rows = [] := by simpa [lines] using hrows.symm
    rw [scanRows, append_nil]
    exact ⟨h, le_add_right _ _⟩
  | succ fuel ih =>
    rw [lines] at hrows
    rw [scanRows]
    by_cases hl : l = []
    · rw [if_pos hl] at hrows ⊢
      obtain rfl : rows = [] := by simpa using hrows.symm
      rw [append_nil]
      exact ⟨h, le_add_right _ _⟩
    · rw [if_neg hl] at hrows ⊢
      cases rows with
      | nil => simp at hrows
      | cons r rows =>
        obtain ⟨hr, hrest⟩ := List.cons.inj hrows
        obtain ⟨hoff, hkey⟩ := Prod.ext_iff.mp hr
        obtain ⟨start, k⟩ := r
        obtain rfl : s.off = start := hoff
        -- the line has a key, and with it a bucket
        have hbucket : t.lineBucket bounds s.off (getline l).1 = .ok (t.bucket bounds k) := by
          obtain ⟨p, hp, hin⟩ := Option.bind_eq_some_iff.mp hkey
          simp only [Target.lineBucket, hp, hin, partitionBucket_eq ht]
        rw [hbucket]
        dsimp only
        obtain ⟨hsplit, hpos, -⟩ := getline_spec hl
        have hlen := congrArg List.length hsplit
        rw [length_append] at hlen
        by_cases hlt : t.bucket bounds k < s.prevBucket
        · rw [if_pos hlt]
          obtain hzero | ⟨r, hr, hprev⟩ := h.last
          · omega
          · refine ⟨r, (s.off, k), ?_, by rwa [hprev], rfl⟩
            exact (singleton_sublist.mpr hr).append (singleton_sublist.mpr mem_cons_self)
        · rw [if_neg hlt]
          have hnext := ih (h.next hpos (Nat.le_of_not_lt hlt)) hrest
          rw [append_assoc, singleton_append] at hnext
          split at hnext
          · refine ⟨hnext.1, hnext.2.trans ?_⟩
            dsimp only
            omega
          · exact hnext

/-! ### The ranges -/

theorem segments_eq (ht : t.Ranges bounds) : segments t f =
    (scanRows t bounds (f.size + 1) f.bytes ⟨0, 0, [0]⟩).map fun s =>
      s.segStart ++ List.replicate (bounds.length + 1 - s.segStart.length) f.size ++ [f.size] := by
  have hlength : bounds.length ≠ 0 := by simpa using ht.nonempty
  unfold segments
  rw [if_neg (by simp [ht.strategy]), if_neg (by simp [ht.partnatts, ht.partattr]), ht.bounds_eq]
  dsimp only
  rw [if_neg hlength, if_neg (by simp [ht.noDefault]), if_neg]
  rcases ht.category with h | h <;> simp [h]

/-- The segments of the file have the rows of smaller buckets in front of them. -/
theorem segments_spec (ht : t.Ranges bounds) (hrows : Reads t f rows) :
    match segments t f with
    | .ok seg => Cuts t bounds rows seg ∧ (∀ r ∈ rows, r.1 < f.size) ∧
      seg.length = bounds.length + 2
    | .error e => ∃ r r', [r, r'].Sublist rows ∧ t.bucket bounds r'.2 < t.bucket bounds r.2 ∧
        e = .notSorted r'.1 := by
  have hinit : Noted t bounds [] ⟨0, 0, [0]⟩ := by
    refine ⟨rfl, zero_le _, nofun, ?_, nofun, .inl rfl, by simp⟩
    exact fun _ _ _ r hr => (not_mem_nil hr).elim
  have hscan := scanRows_spec ht (s := ⟨0, 0, [0]⟩) hinit hrows
  rw [segments_eq ht]
  rw [nil_append] at hscan
  cases hres : scanRows t bounds (f.size + 1) f.bytes ⟨0, 0, [0]⟩ with
  | error e =>
    rw [hres] at hscan
    exact hscan
  | ok s =>
    rw [hres] at hscan
    obtain ⟨hnoted, hoff⟩ := hscan
    have hsize : ∀ r ∈ rows, r.1 < f.size := by
      intro r hr
      have hbegin := hnoted.begins r hr
      have hle : s.off ≤ 0 + f.size := hoff
      omega
    refine ⟨?_, hsize, ?_⟩
    · intro b o ho r hr
      dsimp only at ho
      rw [append_assoc, getElem?_append] at ho
      split at ho
      · exact hnoted.cuts b o ho r hr
      · next hge =>
        -- the buckets that have no row begin at the end
        have ho' : o = f.size := by
          have hmem := mem_of_getElem? ho
          rw [← replicate_succ'] at hmem
          exact eq_of_mem_replicate hmem
        have hlen := hnoted.length
        have hbucket := hnoted.bucket r hr
        have hlt := hsize r hr
        omega
    · have hlen := hnoted.length
      have hle := hnoted.le
      simp only [length_append, length_replicate, length_singleton]
      omega

/-- Rows on two sides of a range are of different partitions. -/
theorem route_ne {indexes : List (Option ℕ)} (hone : OneEach indexes) {seg : List ℕ}
    (hcuts : Cuts t bounds rows seg) {o : ℕ} (ho : o ∈ seg) {r r' : ℕ × κ}
    (hr : r ∈ rows) (hr' : r' ∈ rows) (hlt : r.1 < o) (hge : o ≤ r'.1) (p : ℕ) :
    ¬ (t.route bounds indexes r.2 = some p ∧ t.route bounds indexes r'.2 = some p) := by
  intro ⟨hp, hp'⟩
  obtain ⟨b, hb⟩ := mem_iff_getElem?.mp ho
  have hbelow := (hcuts b o hb r hr).mpr hlt
  have habove := (hcuts b o hb r' hr').not.mpr (by omega)
  have heq := hone _ _ p (Option.join_eq_some_iff.mp hp) (Option.join_eq_some_iff.mp hp')
  omega

/-- **Loaders stay on disjoint partitions.**  For a range-partitioned target and a file of which the
scan reads the keys, the splitter stops because a row belongs to an earlier bucket than a row before
it, or gives every worker a range so that no two of them have rows of one partition. -/
theorem partitionAlignedOffsets_disjoint (ht : t.Ranges bounds) {indexes : List (Option ℕ)}
    (hone : OneEach indexes) {rows : List (ℕ × κ)} (hrows : Reads t f rows) {workers : ℕ}
    (hworkers : 0 < workers) :
    match partitionAlignedOffsets t f workers with
    | .error e => ∃ r r', [r, r'].Sublist rows ∧ t.bucket bounds r'.2 < t.bucket bounds r.2 ∧
        e = .notSorted r'.1
    | .ok offs => ∃ w, 1 ≤ w ∧ w ≤ workers ∧ offs.length = w + 1 ∧ offs.head? = some 0 ∧
        offs.getLast? = some f.size ∧ offs.Pairwise (· ≤ ·) ∧
        ∀ i j, i < j → ∀ r ∈ rows, InRange offs i r → ∀ r' ∈ rows, InRange offs j r' →
          ∀ p, ¬ (t.route bounds indexes r.2 = some p ∧ t.route bounds indexes r'.2 = some p) := by
  have hspec := segments_spec ht hrows
  unfold partitionAlignedOffsets
  cases hseg : segments t f with
  | error e =>
    rw [hseg] at hspec
    exact hspec
  | ok seg =>
    rw [hseg] at hspec
    obtain ⟨hcuts, hsize, hlen⟩ := hspec
    obtain ⟨hfirst, hlast, hasc⟩ := group_ends (segments_segStart hseg) workers
    obtain ⟨picked, k, hsub, -, hgroup⟩ := group_eq f.size workers seg
    refine ⟨groupWorkers workers seg, le_max_left _ _, ?_, length_group f.size workers seg,
      hfirst, hlast,
      hasc, ?_⟩
    · unfold groupWorkers
      omega
    · intro i j hij r hr ⟨_, o, ho, hro⟩ r' hr' ⟨⟨o', ho', hro'⟩, _⟩
      -- the end of the earlier range is at or before the begin of the later one
      have hoo : o ≤ o' := by
        obtain ⟨hlt, rfl⟩ := List.getElem?_eq_some_iff.mp ho
        obtain ⟨hlt', rfl⟩ := List.getElem?_eq_some_iff.mp ho'
        rcases lt_or_eq_of_le (succ_le_of_lt hij) with hlt'' | rfl
        · exact pairwise_iff_getElem.mp hasc _ _ hlt hlt' hlt''
        · exact le_refl _
      have hmem := mem_of_getElem? ho
      rw [hgroup, mem_append, mem_cons] at hmem
      rcases hmem with (rfl | hmem) | hmem
      · omega
      · have hmem' : o ∈ seg := mem_of_mem_tail (hsub.subset hmem)
        exact route_ne hone hcuts hmem' hr hr' hro (hoo.trans hro')
      · have hend := eq_of_mem_replicate hmem
        have hlt := hsize r' hr'
        omega

/-- Two partitions, of the keys below zero and of the others; a key is one digit with its sign. -/
def signedTarget : Target ℤ where
  strategy := .range
  partnatts := 1
  partattr := 1
  bounds := some [.minvalue, .datum 0, .maxvalue]
  defaultIndex := none
  atts := []
  category := 'N'
  input
    | [45, d] => some (48 - d.toNat)
    | [d] => some (d.toNat - 48)
    | _ => none
  cmp a b := a - b

/-- The keys -1 and 1. -/
def signedFile : File := .regular [45, 49, 10, 49, 10]

theorem partitionAlignedOffsets_disjoint_signedFile :
    partitionAlignedOffsets signedTarget signedFile 2 = .ok [0, 3, 5] ∧
      ∀ i j, i < j → ∀ r ∈ [(0, -1), (3, 1)], InRange [0, 3, 5] i r → ∀ r' ∈ [(0, -1), (3, 1)],
        InRange [0, 3, 5] j r' → ∀ p, ¬ (signedTarget.route [.minvalue, .datum 0, .maxvalue]
          [none, some 0, some 1, none] r.2 = some p ∧
            signedTarget.route [.minvalue, .datum 0, .maxvalue]
          [none, some 0, some 1, none] r'.2 = some p) := by
  have heval : partitionAlignedOffsets signedTarget signedFile 2 = .ok [0, 3, 5] := by rfl
  have hranges : signedTarget.Ranges [.minvalue, .datum 0, .maxvalue] := by
    refine ⟨rfl, rfl, by decide, rfl, by simp, rfl, .inl rfl, ?_, ?_⟩
    · exact @totalCmp_of_key _ _ id fun a b => rfl
    · simp [Target.boundLt]
  have hone : OneEach [none, some 0, some 1, none] := by
    intro i j p hi hj
    have hi' : i < 4 := (List.getElem?_eq_some_iff.mp hi).1
    have hj' : j < 4 := (List.getElem?_eq_some_iff.mp hj).1
    interval_cases i <;> interval_cases j
    all_goals simp at hi hj
    all_goals omega
  have hreads : Reads signedTarget signedFile [(0, -1), (3, 1)] := by
    unfold Reads
    decide
  have hworkers : 0 < 2 := by decide
  have hspec := partitionAlignedOffsets_disjoint hranges hone hreads hworkers
  rw [heval] at hspec
  obtain ⟨w, -, -, -, -, -, -, hdisjoint⟩ := hspec
  exact ⟨heval, hdisjoint⟩

end PgColumnar.Copy
