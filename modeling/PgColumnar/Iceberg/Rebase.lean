import Mathlib.Data.List.DropRight
import PgColumnar.Iceberg.Deletes
import PgColumnar.Lib.Percent

/-!
# The paths an Iceberg table may read

A table's metadata records the paths of its files under the location it was written at.
`iceRebase` moves such a path under the table's actual root and refuses one that leads out of it;
`iceOpenPath` also resolves symbolic links.  PostgreSQL's `canonicalize_path` and `realpath` are
parameters.

## Main definitions

* `iceRebase`, `iceOpenPath` — a recorded path, moved under the table's location.
* `Contained` — the paths that lie below it.

## Main results

* `iceHasEncodedDotdot_eq_false_iff` — the decode loop ends, and misses nothing.
* `contained_iff` — exactly when the paths are contained.
-/

namespace PgColumnar.Iceberg

open Bytes List Percent

def slash : Byte := 47

/-- `PgColumnarPathIsRemote` -/
def pathIsRemote (path : CString) : Bool :=
  ["s3://", "gs://", "az://", "https://", "http://"].any fun scheme =>
    caseEq (path.take scheme.length) (ascii scheme)

/-- `PgColumnarPathIsS3Alias` -/
def pathIsS3Alias (path : CString) : Bool :=
  caseEq (path.take 6) (ascii "s3a://") || caseEq (path.take 6) (ascii "s3n://")

/-- `PgColumnarS3Alias`, the source's `ice_s3_alias` -/
def s3Alias (path : CString) : CString :=
  if pathIsS3Alias path then ascii "s3://" ++ path.drop 6 else path

/-- `ice_strip_scheme` -/
def iceStripScheme (path : CString) : CString :=
  if (ascii "file://").isPrefixOf path then path.drop 7 else s3Alias path

/-! ### Segments -/

def dotdot : List Byte := ascii ".."

/-- A `..` that ends here or is followed by a separator. -/
def dotdotAt (p : CString) : Bool :=
  dotdot.isPrefixOf p && (p.drop 2 == [] || (p.drop 2).head? == some slash)

/-- `ice_has_dotdot`: the loop stands at the start of a segment whenever it tests. -/
def iceHasDotdot (p : CString) : Bool :=
  if p = [] then false
  else if dotdotAt p then true
  else
    match _h : p.dropWhile (· != slash) with
    | [] => false
    | _ :: rest => iceHasDotdot rest
termination_by p.length
decreasing_by
  have hle := (dropWhile_suffix (· != slash) (l := p)).length_le
  simp only [_h, length_cons] at hle
  omega

/-- The segments between separators. -/
def segments (s : CString) : List CString := s.splitOn slash

variable {s : CString}

theorem segments_of_notMem (h : slash ∉ s) : segments s = [s] :=
  splitOn_eq_singleton h

variable {xs : CString}

theorem segments_append (h : slash ∉ xs) (rest : CString) :
    segments (xs ++ slash :: rest) = xs :: segments rest := by
  rw [segments, splitOn_append_cons_self, splitOn_eq_singleton h]
  rfl

/-- The end of a string, or a separator. -/
def OnBoundary (s : CString) : Prop := s = [] ∨ s.head? = some slash

theorem slash_bne_of_notMem (h : slash ∉ xs) : ∀ b ∈ xs, (b != slash) = true := by
  intro b hb
  rw [bne_iff_ne]
  exact fun heq => h (heq ▸ hb)

theorem dropWhile_slash (h : slash ∉ xs) (rest : CString) :
    (xs ++ slash :: rest).dropWhile (· != slash) = slash :: rest := by
  rw [dropWhile_append_of_pos (slash_bne_of_notMem h)]
  simp

theorem takeWhile_slash {rest : CString} (h : slash ∉ xs) (hrest : OnBoundary rest) :
    (xs ++ rest).takeWhile (· != slash) = xs := by
  rw [takeWhile_append_of_pos (slash_bne_of_notMem h)]
  obtain rfl | hhead := hrest
  · simp
  · obtain ⟨tail, rfl⟩ := head?_eq_some_iff.mp hhead
    simp

theorem dotdotAt_append {rest : CString} (h : slash ∉ xs) (hrest : OnBoundary rest) :
    dotdotAt (xs ++ rest) = true ↔ xs = dotdot := by
  constructor
  · intro hat
    simp only [dotdotAt, Bool.and_eq_true, isPrefixOf_iff_prefix, Bool.or_eq_true,
      beq_iff_eq] at hat
    obtain ⟨⟨tail, htail⟩, hend⟩ := hat
    have hdrop : (xs ++ rest).drop 2 = tail := by rw [← htail]; rfl
    rw [hdrop] at hend
    have hdots : slash ∉ dotdot := by decide
    -- both sides are cut at their first separator
    have hcut := congrArg (List.takeWhile (· != slash)) htail
    rw [takeWhile_slash hdots hend, takeWhile_slash h hrest] at hcut
    exact hcut.symm
  · intro heq
    subst heq
    simpa [dotdotAt, dotdot, ascii, OnBoundary] using hrest

theorem eq_segment_or (s : CString) :
    slash ∉ s ∨ ∃ xs rest, slash ∉ xs ∧ s = xs ++ slash :: rest := by
  by_cases h : slash ∈ s
  · obtain ⟨xs, rest, heq, hxs⟩ := eq_append_cons_of_mem h
    exact .inr ⟨xs, rest, hxs, heq⟩
  · exact .inl h

/-- **The scan finds exactly the paths with a `..` segment.** -/
theorem iceHasDotdot_iff (s : CString) : iceHasDotdot s = true ↔ dotdot ∈ segments s := by
  induction hlen : s.length using Nat.strong_induction_on generalizing s with
  | _ n ih =>
    rw [iceHasDotdot]
    obtain hs | ⟨xs, rest, hxs, rfl⟩ := eq_segment_or s
    · have hat := dotdotAt_append hs (.inl rfl)
      have hdrop : s.dropWhile (· != slash) = [] := by
        rw [dropWhile_eq_nil_iff]
        exact slash_bne_of_notMem hs
      rw [append_nil] at hat
      rw [segments_of_notMem hs, mem_singleton, hdrop]
      by_cases hnil : s = []
      · simp [hnil, dotdot, ascii]
      · simp [hnil, hat, eq_comm]
    · have hat : dotdotAt (xs ++ slash :: rest) = true ↔ xs = dotdot :=
        dotdotAt_append hxs (.inr rfl)
      have hnil : xs ++ slash :: rest ≠ [] := by simp
      have hrest := ih rest.length (by rw [← hlen]; simp; omega) rest rfl
      rw [segments_append hxs, mem_cons, if_neg hnil, dropWhile_slash hxs]
      by_cases hdd : dotdotAt (xs ++ slash :: rest) = true
      · simp only [hdd, if_true, (hat.mp hdd).symm, true_or]
      · have hne : dotdot ≠ xs := fun heq => hdd (hat.mpr heq.symm)
        simp [hdd, hne, hrest]

/-! ### Percent-decoding -/

structure Decoded where
  out : CString
  changed : Bool
  sawnul : Bool

/-- `ice_percent_decode_once` -/
def icePercentDecodeOnce : CString → Decoded
  | c :: h :: l :: rest =>
    match Percent.escape c h l with
    | some b =>
      let d := icePercentDecodeOnce rest
      ⟨b :: d.out, true, d.sawnul || b == 0#8⟩
    | none =>
      let d := icePercentDecodeOnce (h :: l :: rest)
      ⟨c :: d.out, d.changed, d.sawnul⟩
  | s => ⟨s, false, false⟩

theorem icePercentDecodeOnce_out (s : CString) :
    (icePercentDecodeOnce s).out = Percent.decode s := by
  induction s using icePercentDecodeOnce.induct with
  | case1 c h l rest b hesc ih | case2 c h l rest hesc ih =>
    simp [icePercentDecodeOnce, Percent.decode, hesc, ih]
  | case3 s hs => simp only [icePercentDecodeOnce, Percent.decode]

theorem icePercentDecodeOnce_changed (s : CString) :
    if (icePercentDecodeOnce s).changed then (Percent.decode s).length < s.length
    else Percent.decode s = s := by
  induction s using icePercentDecodeOnce.induct with
  | case1 c h l rest b hesc ih =>
    have hle : (Percent.decode rest).length ≤ rest.length := by
      obtain heq | hlt := decode_eq_or_lt rest
      · rw [heq]
      · exact hlt.le
    simp only [icePercentDecodeOnce, Percent.decode, hesc, length_cons, if_true]
    omega
  | case2 c h l rest hesc ih =>
    simp only [icePercentDecodeOnce, Percent.decode, hesc]
    split at ih
    · next hch => simpa [hch] using ih
    · next hch => simp [hch, ih]
  | case3 s hs => simp [icePercentDecodeOnce, Percent.decode]

/-- Decoding makes a NUL exactly when an escape stands for one. -/
theorem icePercentDecodeOnce_sawnul (h : 0#8 ∉ s) :
    (icePercentDecodeOnce s).sawnul = true ↔ 0#8 ∈ Percent.decode s := by
  induction s using icePercentDecodeOnce.induct with
  | case1 c hi lo rest b hesc ih =>
    have hrest : 0#8 ∉ rest := fun hmem => h (by simp [hmem])
    simp only [icePercentDecodeOnce, Percent.decode, hesc, Bool.or_eq_true, ih hrest, beq_iff_eq,
      mem_cons]
    rw [or_comm, eq_comm]
  | case2 c hi lo rest hesc ih =>
    have hrest : 0#8 ∉ hi :: lo :: rest := fun hmem => h (mem_cons_of_mem _ hmem)
    have hc : 0#8 ≠ c := fun heq => h (by simp [heq])
    simp only [icePercentDecodeOnce, Percent.decode, hesc, ih hrest, mem_cons, hc, false_or]
  | case3 s hs => simp [icePercentDecodeOnce, Percent.decode, h]

/-- `ice_has_encoded_dotdot` -/
def iceHasEncodedDotdot (cur : CString) : Bool :=
  if (icePercentDecodeOnce cur).sawnul then true
  else if _h : (icePercentDecodeOnce cur).changed = true then
    if iceHasDotdot (icePercentDecodeOnce cur).out then true
    else iceHasEncodedDotdot (icePercentDecodeOnce cur).out
  else false
termination_by cur.length
decreasing_by
  have hlt := icePercentDecodeOnce_changed cur
  rw [if_pos _h] at hlt
  rwa [icePercentDecodeOnce_out]

/-- No `..` segment and no NUL. -/
def Clean (s : CString) : Prop := dotdot ∉ segments s ∧ 0#8 ∉ s

theorem clean_iterate_iff (s : CString) :
    (∀ n, Clean (Percent.decode^[n] s)) ↔
      Clean s ∧ ∀ n, Clean (Percent.decode^[n] (Percent.decode s)) := by
  constructor
  · intro h
    exact ⟨h 0, fun n => h (n + 1)⟩
  · intro h n
    cases n with
    | zero => exact h.1
    | succ n => exact h.2 n

/-- **The decode loop ends, and answers false when every number of decodings is clean.** -/
theorem iceHasEncodedDotdot_eq_false_iff (h : Clean s) :
    iceHasEncodedDotdot s = false ↔ ∀ n, Clean (Percent.decode^[n] s) := by
  induction hlen : s.length using Nat.strong_induction_on generalizing s with
  | _ n ih =>
    have hnul := icePercentDecodeOnce_sawnul h.2
    have hch := icePercentDecodeOnce_changed s
    have hdd := iceHasDotdot_iff (Percent.decode s)
    rw [iceHasEncodedDotdot, icePercentDecodeOnce_out]
    by_cases h1 : (icePercentDecodeOnce s).sawnul = true
    · have hdirty : ¬ ∀ n, Clean (Percent.decode^[n] s) := fun hall => (hall 1).2 (hnul.mp h1)
      simp [h1, hdirty]
    · by_cases h2 : (icePercentDecodeOnce s).changed = true
      · rw [if_pos h2] at hch
        by_cases h3 : iceHasDotdot (Percent.decode s) = true
        · have hdirty : ¬ ∀ n, Clean (Percent.decode^[n] s) := fun hall => (hall 1).1 (hdd.mp h3)
          simp [h1, h2, h3, hdirty]
        · have hclean : Clean (Percent.decode s) :=
            ⟨fun hmem => h3 (hdd.mpr hmem), fun hmem => h1 (hnul.mpr hmem)⟩
          have hnext := ih _ (hlen ▸ hch) hclean rfl
          rw [clean_iterate_iff]
          simp [h1, h2, h3, hnext, h]
      · rw [if_neg h2] at hch
        have hall : ∀ n, Clean (Percent.decode^[n] s) := by
          intro n
          rwa [iterate_decode_of_eq hch]
        simp [h1, h2, hall]

/-! ### Rebasing -/

/-- The length that is left when trailing separators are dropped, the first byte kept. -/
def rootLength (root : CString) : ℕ → ℕ
  | 0 => 0
  | n + 1 => if 0 < n ∧ root[n]? = some slash then rootLength root n else n + 1

/-- `strncmp` with the root, and a boundary behind it. -/
def atRoot (root p : CString) : Bool :=
  root.isPrefixOf p && ((p.drop root.length) == [] || (p.drop root.length).head? == some slash)

inductive RebaseError
  | isNull (what mdpath : CString)
  | notUnder (what path mdpath root : CString)
  | escapes (what path mdpath root : CString)
  | couldNotResolve (what path mdpath : CString)
  | resolvesOutside (what path mdpath root real : CString)
  deriving DecidableEq

section Rebase

variable (canonicalizePath : CString → CString) (realpath : CString → Option CString)

/-- `ice_rebase` -/
def iceRebase (recordedRoot actualRoot : CString) (recordedPath : Option CString)
    (what mdpath : CString) : Except RebaseError CString :=
  match recordedPath with
  | none => .error (.isNull what mdpath)
  | some path =>
    let p := iceStripScheme path
    let rlen := rootLength recordedRoot recordedRoot.length
    if atRoot (recordedRoot.take rlen) p then
      let cand := actualRoot ++ p.drop rlen
      if pathIsRemote actualRoot then
        if iceHasDotdot (p.drop rlen) || iceHasEncodedDotdot (p.drop rlen) then
          .error (.escapes what path mdpath actualRoot)
        else .ok cand
      else if atRoot actualRoot (canonicalizePath cand) then .ok (canonicalizePath cand)
      else .error (.escapes what path mdpath actualRoot)
    else .error (.notUnder what path mdpath recordedRoot)

/-- `ice_open_path` -/
def iceOpenPath (recordedRoot actualRootReal : CString) (recordedPath : Option CString)
    (what mdpath : CString) : Except RebaseError CString :=
  match iceRebase canonicalizePath recordedRoot actualRootReal recordedPath what mdpath with
  | .error e => .error e
  | .ok cand =>
    if pathIsRemote actualRootReal then .ok cand
    else
      match realpath cand with
      | none => .error (.couldNotResolve what (recordedPath.getD []) mdpath)
      | some real =>
        if atRoot actualRootReal real then .ok real
        else .error (.resolvesOutside what (recordedPath.getD []) mdpath actualRootReal real)

end Rebase

theorem atRoot_iff {root p : CString} :
    atRoot root p = true ↔ ∃ suffix, p = root ++ suffix ∧ OnBoundary suffix := by
  simp only [atRoot, Bool.and_eq_true, isPrefixOf_iff_prefix, Bool.or_eq_true, beq_iff_eq]
  constructor
  · intro h
    obtain ⟨⟨suffix, rfl⟩, hend⟩ := h
    rw [drop_left] at hend
    exact ⟨suffix, rfl, hend⟩
  · intro h
    obtain ⟨suffix, rfl, hend⟩ := h
    rw [drop_left]
    exact ⟨⟨suffix, rfl⟩, hend⟩

/-! ### The recorded root -/

/-- A root without its trailing separators. -/
def bareRoot (root : CString) : CString := root.rdropWhile (· == slash)

theorem rootLength_le (root : CString) (n : ℕ) : rootLength root n ≤ n := by
  induction n with
  | zero => exact le_rfl
  | succ n ih =>
    rw [rootLength]
    split <;> omega

theorem rootLength_append (xs ys : CString) {n : ℕ} (hn : n ≤ xs.length) :
    rootLength (xs ++ ys) n = rootLength xs n := by
  induction n with
  | zero => rfl
  | succ n ih =>
    rw [rootLength, rootLength, ih (by omega), getElem?_append_left (by omega)]

theorem rootLength_concat (xs : CString) (b : Byte) :
    rootLength (xs ++ [b]) (xs ++ [b]).length =
      if xs ≠ [] ∧ b = slash then rootLength xs xs.length else xs.length + 1 := by
  have hget : (xs ++ [b])[xs.length]? = some b := by simp
  rw [length_append, length_singleton, rootLength, hget, rootLength_append _ _ le_rfl]
  simp only [length_pos_iff, Option.some.injEq]

theorem bareRoot_concat (xs : CString) (b : Byte) :
    bareRoot (xs ++ [b]) = if b = slash then bareRoot xs else xs ++ [b] := by
  simp [bareRoot, rdropWhile_concat]

/-- What the loop leaves of a root: the root directory keeps one separator. -/
theorem take_rootLength (root : CString) :
    root.take (rootLength root root.length) =
      if root ≠ [] ∧ bareRoot root = [] then [slash] else bareRoot root := by
  induction root using List.reverseRecOn with
  | nil => rfl
  | append_singleton xs b ih =>
    rw [rootLength_concat, bareRoot_concat]
    by_cases hb : b = slash
    · by_cases hxs : xs = []
      · subst hxs hb
        decide
      · have hle := rootLength_le xs xs.length
        rw [if_pos ⟨hxs, hb⟩, take_append_of_le_length hle, ih]
        simp [hb, hxs]
    · simp [hb]

/-- A path that lies under a recorded root on a path boundary. -/
def Under (root p : CString) : Prop :=
  p ≠ [] ∧ ∃ suffix, p = bareRoot root ++ suffix ∧ OnBoundary suffix

/-! ### What a table may read -/

theorem nul_notMem_iceStripScheme (h : 0#8 ∉ s) : 0#8 ∉ iceStripScheme s := by
  have hdrop : ∀ n, 0#8 ∉ s.drop n := fun n hmem => h (mem_of_mem_drop hmem)
  unfold iceStripScheme s3Alias
  split
  · exact hdrop 7
  · split
    · rw [mem_append, not_or]
      exact ⟨by decide, hdrop 6⟩
    · exact h

/-- The two tests of a remote suffix together. -/
theorem remote_tests_iff (h : 0#8 ∉ s) :
    (iceHasDotdot s || iceHasEncodedDotdot s) = false ↔ ∀ n, Clean (Percent.decode^[n] s) := by
  have hdd := iceHasDotdot_iff s
  rw [Bool.or_eq_false_iff]
  constructor
  · intro hfalse
    have hclean : Clean s := ⟨fun hmem => by simp [hdd.mpr hmem] at hfalse, h⟩
    exact (iceHasEncodedDotdot_eq_false_iff hclean).mp hfalse.2
  · intro hall
    have hclean : Clean s := hall 0
    have hnot : iceHasDotdot s = false := by
      rw [Bool.eq_false_iff, Ne, hdd]
      exact hclean.1
    exact ⟨hnot, (iceHasEncodedDotdot_eq_false_iff hclean).mpr hall⟩

theorem clean_slash_cons (s : CString) : Clean (slash :: s) ↔ Clean s := by
  have hseg : segments (slash :: s) = [] :: segments s := by
    exact segments_append not_mem_nil s
  have hslash : 0#8 ≠ slash := by decide
  have hdots : dotdot ≠ [] := by decide
  simp [Clean, hseg, hslash, hdots]

/-- A separator in front changes nothing. -/
theorem clean_iterate_slash_cons (s : CString) :
    (∀ n, Clean (Percent.decode^[n] (slash :: s))) ↔ ∀ n, Clean (Percent.decode^[n] s) := by
  have hne : slash ≠ 37 := by decide
  simp only [iterate_decode_cons_of_ne hne, clean_slash_cons]

/-- The recorded root is the root directory, and the path goes on below it with a plain name. -/
def UnderRootDir (root p : CString) : Prop :=
  root ≠ [] ∧ (∀ b ∈ root, b = slash) ∧
    (∃ c rest, p = slash :: c :: rest ∧ c ≠ slash) ∧ ∀ n, Clean (Percent.decode^[n] p)

section Contained

variable (canonicalizePath : CString → CString) (realpath : CString → Option CString)

/-- What may be returned and opened for a recorded path, and what may be refused. -/
structure Contained (recordedRoot actualRoot : CString) (path : Option CString)
    (what mdpath : CString) : Prop where
  remote_returns : pathIsRemote actualRoot = true → ∀ c,
    iceRebase canonicalizePath recordedRoot actualRoot path what mdpath = .ok c →
      ∃ suffix, c = actualRoot ++ suffix ∧ OnBoundary suffix ∧
        ∀ n, Clean (Percent.decode^[n] suffix)
  remote_refuses : pathIsRemote actualRoot = true → ∀ e,
    iceRebase canonicalizePath recordedRoot actualRoot path what mdpath = .error e →
      ∀ s, path = some s → Under recordedRoot (iceStripScheme s) →
        ∃ suffix, iceStripScheme s = bareRoot recordedRoot ++ suffix ∧
          ¬ ∀ n, Clean (Percent.decode^[n] suffix)
  remote_opens : pathIsRemote actualRoot = true →
    iceOpenPath canonicalizePath realpath recordedRoot actualRoot path what mdpath =
      iceRebase canonicalizePath recordedRoot actualRoot path what mdpath
  local_returns : pathIsRemote actualRoot = false → ∀ c,
    iceRebase canonicalizePath recordedRoot actualRoot path what mdpath = .ok c →
      (∃ suffix, c = actualRoot ++ suffix ∧ OnBoundary suffix) ∧
        (∃ suffix, c = canonicalizePath (actualRoot ++ suffix)) ∧
          (actualRoot.head? = some slash → dotdot ∉ segments c)
  local_opens : pathIsRemote actualRoot = false → ∀ c,
    iceOpenPath canonicalizePath realpath recordedRoot actualRoot path what mdpath = .ok c →
      realpath c = some c ∧ dotdot ∉ segments c ∧
        ∃ suffix, c = actualRoot ++ suffix ∧ OnBoundary suffix

variable {canonicalizePath realpath} {recordedRoot actualRoot : CString} {path : Option CString}
  {what mdpath : CString} {c : CString}

theorem iceRebase_local_ok (hlocal : pathIsRemote actualRoot = false)
    (h : iceRebase canonicalizePath recordedRoot actualRoot path what mdpath = .ok c) :
    atRoot actualRoot c = true ∧ ∃ suffix, c = canonicalizePath (actualRoot ++ suffix) := by
  cases path with
  | none => cases h
  | some s =>
    simp only [iceRebase, hlocal, Bool.false_eq_true, if_false] at h
    split at h
    · split_ifs at h with hat
      cases h
      exact ⟨hat, _, rfl⟩
    · cases h

theorem iceOpenPath_remote (hremote : pathIsRemote actualRoot = true) :
    iceOpenPath canonicalizePath realpath recordedRoot actualRoot path what mdpath =
      iceRebase canonicalizePath recordedRoot actualRoot path what mdpath := by
  unfold iceOpenPath
  split
  · next e he => exact he.symm
  · next c hc => rw [if_pos hremote, hc]

theorem iceOpenPath_local_ok (hlocal : pathIsRemote actualRoot = false)
    (h : iceOpenPath canonicalizePath realpath recordedRoot actualRoot path what mdpath = .ok c) :
    atRoot actualRoot c = true ∧ ∃ cand, realpath cand = some c := by
  unfold iceOpenPath at h
  split at h
  · cases h
  · next cand hcand =>
    rw [hlocal, if_neg Bool.false_ne_true] at h
    split at h
    · cases h
    · next real hreal =>
      split_ifs at h with hat
      cases h
      exact ⟨hat, cand, hreal⟩

/-- The remote branch, with what the loop leaves of the recorded root. -/
theorem iceRebase_remote_some (hremote : pathIsRemote actualRoot = true) {root : CString}
    (hroot : recordedRoot.take (rootLength recordedRoot recordedRoot.length) = root) (s : CString) :
    iceRebase canonicalizePath recordedRoot actualRoot (some s) what mdpath =
      if atRoot root (iceStripScheme s) then
        if iceHasDotdot ((iceStripScheme s).drop root.length) ||
            iceHasEncodedDotdot ((iceStripScheme s).drop root.length) then
          .error (.escapes what s mdpath actualRoot)
        else .ok (actualRoot ++ (iceStripScheme s).drop root.length)
      else .error (.notUnder what s mdpath recordedRoot) := by
  subst hroot
  have hle := rootLength_le recordedRoot recordedRoot.length
  simp only [iceRebase, hremote, if_true, length_take, Nat.min_eq_left hle]

theorem take_rootLength_of_rootDir (hne : recordedRoot ≠ [])
    (hall : ∀ b ∈ recordedRoot, b = slash) :
    recordedRoot.take (rootLength recordedRoot recordedRoot.length) = [slash] ∧
      bareRoot recordedRoot = [] := by
  have hbare : bareRoot recordedRoot = [] := by
    rw [bareRoot, rdropWhile_eq_nil_iff]
    intro b hb
    simp [hall b hb]
  rw [take_rootLength, if_pos ⟨hne, hbare⟩]
  exact ⟨rfl, hbare⟩

theorem remote_returns (hpath : ∀ s, path = some s → 0#8 ∉ s)
    (hremote : pathIsRemote actualRoot = true)
    (h : iceRebase canonicalizePath recordedRoot actualRoot path what mdpath = .ok c) :
    ∃ suffix, c = actualRoot ++ suffix ∧ OnBoundary suffix ∧
      ∀ n, Clean (Percent.decode^[n] suffix) := by
  cases path with
  | none => cases h
  | some s =>
    rw [iceRebase_remote_some hremote rfl] at h
    split at h
    · next hat =>
      obtain ⟨suffix, heq, hend⟩ := atRoot_iff.mp hat
      have hnul : 0#8 ∉ suffix := by
        have hstrip := nul_notMem_iceStripScheme (hpath s rfl)
        rw [heq, mem_append, not_or] at hstrip
        exact hstrip.2
      rw [heq, drop_left] at h
      split_ifs at h with htests
      cases h
      rw [Bool.not_eq_true] at htests
      exact ⟨suffix, rfl, hend, (remote_tests_iff hnul).mp htests⟩
    · cases h

/-- The root directory apart, only paths outside the root and unclean ones are refused. -/
theorem remote_refuses (hpath : ∀ s, path = some s → 0#8 ∉ s)
    (hremote : pathIsRemote actualRoot = true)
    (hroot : ∀ s, path = some s → ¬ UnderRootDir recordedRoot (iceStripScheme s)) {e : RebaseError}
    (h : iceRebase canonicalizePath recordedRoot actualRoot path what mdpath = .error e)
    (s : CString)
    (hs : path = some s) (hunder : Under recordedRoot (iceStripScheme s)) :
    ∃ suffix, iceStripScheme s = bareRoot recordedRoot ++ suffix ∧
      ¬ ∀ n, Clean (Percent.decode^[n] suffix) := by
  subst hs
  have hnul := nul_notMem_iceStripScheme (hpath s rfl)
  have hplain := hroot s rfl
  obtain ⟨hne, tail, htail, hbound⟩ := hunder
  by_cases hdir : recordedRoot ≠ [] ∧ bareRoot recordedRoot = []
  · -- the root directory: one separator of it is compared
    have hall : ∀ b ∈ recordedRoot, b = slash := by
      simpa [bareRoot, rdropWhile_eq_nil_iff] using hdir.2
    rw [iceRebase_remote_some hremote (take_rootLength_of_rootDir hdir.1 hall).1] at h
    rw [hdir.2, nil_append] at htail
    refine ⟨iceStripScheme s, by rw [hdir.2, nil_append], fun hclean =>
      hplain ⟨hdir.1, hall, ?_, hclean⟩⟩
    split at h
    · next hat =>
      obtain ⟨suffix, heq, -⟩ := atRoot_iff.mp hat
      rw [heq, singleton_append] at hclean hnul
      have htests := (remote_tests_iff fun hmem => hnul (mem_cons_of_mem _ hmem)).mpr
        ((clean_iterate_slash_cons suffix).mp hclean)
      rw [heq, drop_left, htests] at h
      cases h
    · next hat =>
      obtain hnil | hhead := hbound
      · exact absurd (htail.trans hnil) hne
      · obtain ⟨rest, hrest⟩ := head?_eq_some_iff.mp hhead
        rw [atRoot_iff] at hat
        cases rest with
        | nil => exact absurd ⟨[], by rw [htail, hrest, append_nil], .inl rfl⟩ hat
        | cons c rest =>
          refine ⟨c, rest, by rw [htail, hrest], fun hc => hat ?_⟩
          exact ⟨c :: rest, by rw [htail, hrest]; rfl, .inr (by rw [hc]; rfl)⟩
  · have hroot := take_rootLength recordedRoot
    rw [if_neg hdir] at hroot
    rw [iceRebase_remote_some hremote hroot, if_pos (atRoot_iff.mpr ⟨tail, htail, hbound⟩), htail,
      drop_left] at h
    split_ifs at h with htests
    have htail_nul : 0#8 ∉ tail := by
      rw [htail, mem_append, not_or] at hnul
      exact hnul.2
    refine ⟨tail, htail, fun hclean => ?_⟩
    rw [(remote_tests_iff htail_nul).mpr hclean] at htests
    cases htests

/-- **The paths are contained, and nothing else is refused, unless the recorded root is the root
directory.** -/
theorem contained_iff (hcanon : ∀ p, p.head? = some slash → dotdot ∉ segments (canonicalizePath p))
    (hreal : ∀ p r, realpath p = some r → realpath r = some r ∧ dotdot ∉ segments r)
    (hpath : ∀ s, path = some s → 0#8 ∉ s) :
    Contained canonicalizePath realpath recordedRoot actualRoot path what mdpath ↔
      ¬ (pathIsRemote actualRoot = true ∧
        ∃ s, path = some s ∧ UnderRootDir recordedRoot (iceStripScheme s)) := by
  constructor
  · intro h hfail
    obtain ⟨hremote, s, hs, hne, hall, ⟨c, rest, hp, hc⟩, hclean⟩ := hfail
    subst hs
    obtain ⟨hroot, hbare⟩ := take_rootLength_of_rootDir hne hall
    have hat : ¬ atRoot [slash] (iceStripScheme s) = true := by
      rw [hp, atRoot_iff]
      intro hex
      obtain ⟨suffix, heq, hend⟩ := hex
      cases heq
      simp [OnBoundary, hc] at hend
    have herr : iceRebase canonicalizePath recordedRoot actualRoot (some s) what mdpath =
        .error (.notUnder what s mdpath recordedRoot) := by
      rw [iceRebase_remote_some hremote hroot, if_neg hat]
    have hunder : Under recordedRoot (iceStripScheme s) := by
      rw [hp]
      exact ⟨by simp, slash :: c :: rest, by rw [hbare, nil_append], .inr rfl⟩
    obtain ⟨suffix, heq, hdirty⟩ := h.remote_refuses hremote _ herr s rfl hunder
    rw [hbare, nil_append] at heq
    exact hdirty (heq ▸ hclean)
  · intro hok
    refine ⟨?_, ?_, iceOpenPath_remote, ?_, ?_⟩
    · intro hremote c hc
      exact remote_returns hpath hremote hc
    · intro hremote e he s hs hunder
      exact remote_refuses hpath hremote
        (fun s hs hdir => hok ⟨hremote, s, hs, hdir⟩) he s hs hunder
    · intro hlocal c hc
      obtain ⟨hat, suffix, heq⟩ := iceRebase_local_ok hlocal hc
      refine ⟨atRoot_iff.mp hat, ⟨suffix, heq⟩, fun habs => ?_⟩
      rw [heq]
      apply hcanon
      obtain ⟨rest, hrest⟩ := head?_eq_some_iff.mp habs
      rw [hrest]
      rfl
    · intro hlocal c hc
      obtain ⟨hat, cand, hcand⟩ := iceOpenPath_local_ok hlocal hc
      obtain ⟨hfix, hdots⟩ := hreal cand c hcand
      exact ⟨hfix, hdots, atRoot_iff.mp hat⟩

theorem contained_iff_bucket :
    Contained (fun p => if dotdot ∈ segments p then [slash] else p)
      (fun p => if dotdot ∈ segments p then none else some p) (ascii "s3://b/t/") (ascii "s3://c/u")
      (some (ascii "s3a://b/t/data/%41.parquet")) (ascii "data file")
        (ascii "s3://c/u/metadata/v1.json") := by
  refine (contained_iff ?_ ?_ ?_).mpr ?_
  · intro p _
    split
    · decide
    · next h => exact h
  · intro p r h
    split_ifs at h with hdots
    cases h
    exact ⟨if_neg hdots, hdots⟩
  · intro s hs
    cases hs
    decide
  · intro h
    obtain ⟨-, s, -, hdir⟩ := h
    exact absurd hdir.2.1 (by decide)

/-- With the root directory recorded, a file in it is refused. -/
theorem not_contained_rootDir :
    ¬ Contained (fun p => if dotdot ∈ segments p then [slash] else p)
      (fun p => if dotdot ∈ segments p then none else some p) (ascii "/") (ascii "s3://b/t")
      (some (ascii "file:///x.parquet")) (ascii "data file")
        (ascii "s3://b/t/metadata/v1.json") := by
  intro h
  have hunder : Under (ascii "/") (iceStripScheme (ascii "file:///x.parquet")) :=
    ⟨by decide, ascii "/x.parquet", by decide, .inr (by decide)⟩
  obtain ⟨suffix, heq, hdirty⟩ := h.remote_refuses (by decide) _ rfl _ rfl hunder
  have hsuffix : suffix = ascii "/x.parquet" := by
    have hbare : bareRoot (ascii "/") = [] := by decide
    rw [hbare, nil_append] at heq
    rw [← heq]
    decide
  apply hdirty
  intro n
  rw [hsuffix, iterate_decode_of_eq (by decide)]
  exact ⟨by decide, by decide⟩

end Contained

end PgColumnar.Iceberg
