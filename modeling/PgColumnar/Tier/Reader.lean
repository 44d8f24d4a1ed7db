import PgColumnar.Iceberg.Rebase
import PgColumnar.Lib.FileTree

/-!
# The files a foreign table reads

`pq_resolve_paths` turns the path of a Parquet table into the files to read; an Iceberg table reads
under its location.  The file system has no symbolic links.  `fnmatch` and the bounded call of
`glob` are parameters.

## Main definitions

* `Storage` — files and buckets.
* `pqResolvePaths` — the files that a path stands for.

## Main results

* `mem_pqResolvePaths` — how a path gets among them.
-/

namespace PgColumnar.Tier

open Bytes Iceberg Paths List

def period : Byte := 46

abbrev Location := List CString

/-- What `PATH_MAX` bounds. -/
def pathMax : ℕ := 4096

structure Storage where
  tree : FileTree slash period
  cwd : Location
  objects : List (CString × CString)
  /-- whether the object-store module is installed -/
  objstore : Bool

/-! ### One path -/

def resolve (s : Storage) (p : CString) : Option Location := s.tree.resolve pathMax s.cwd p

def stat (s : Storage) (p : CString) : Option FileKind := (resolve s p).bind s.tree.kind

/-- `pq_has_glob_meta` -/
def hasGlobMeta (p : CString) : Bool := p.any fun b => b ∈ ascii "*?["

/-- `pq_has_parquet_ext` -/
def hasParquetExt (name : CString) : Bool :=
  decide (8 ≤ name.length) && caseEq (name.drop (name.length - 8)) (ascii ".parquet")

/-- `pq_path_is_candidate` -/
def pathIsCandidate (s : Storage) (p : CString) : Bool :=
  match stat s p with
  | none => true
  | some k => k == .file

inductive ReadError
  | ipv6Literal (url : CString)
  | objstoreMissing (path : CString)
  | listingUnsupported (url : CString)
  | notBucketPrefix (url : CString)
  | patternTooLong (bytes : ℕ)
  | tooManyLevels (levels : ℕ)
  | noObjects (path : CString)
  | nestedDeeper (path : CString) (depth : ℕ)
  | couldNotOpenDir (path : CString)
  | noParquetFiles (path : CString) (skipped : ℕ)
  | tooManySteps (pattern : CString)
  | interrupted (pattern : CString)
  | noFilesMatch (path : CString)
  | couldNotExpand (path : CString)
  | noRegularFiles (path : CString)
  | couldNotMatch (pattern path : CString)
  deriving DecidableEq

/-- `ERRCODE_PROGRAM_LIMIT_EXCEEDED` -/
def ReadError.isLimit : ReadError → Bool
  | .patternTooLong _ | .tooManyLevels _ | .tooManySteps _ | .nestedDeeper _ _ => true
  | _ => false

/-! ### The walk of a directory -/

structure Walk where
  files : List CString
  subdirs : List CString
  skipped : ℕ

/-- One entry of `pq_walk_dir`'s loop. -/
def walkEntry (s : Storage) (path : CString) (w : Walk) (name : CString) : Walk :=
  if name = ascii "." ∨ name = ascii ".." then w
  else if name.head? = some 95 ∨ name.head? = some period then w
  else if stat s (path ++ slash :: name) =
    some .dir then { w with subdirs := w.subdirs ++ [path ++ slash :: name] }
  else if ¬ hasParquetExt name then w
  else if pathIsCandidate s (path ++ slash :: name)
    then { w with files := w.files ++ [path ++ slash :: name] }
  else { w with skipped := w.skipped + 1 }

/-- What a directory lists, its own two dots first. -/
def readdir (s : Storage) (path : CString) : Option (List CString) :=
  match resolve s path with
  | none => none
  | some loc =>
    if s.tree.kind loc = some .dir then some (ascii "." :: ascii ".." :: s.tree.entries loc)
      else none

def maxWalkDepth : ℕ := 32

/-- `pq_walk_dir`, with the levels that are left instead of the depth. -/
def pqWalkDir (s : Storage) : ℕ → CString → List CString × ℕ → Except ReadError (List CString × ℕ)
  | 0, path, _ => .error (.nestedDeeper path maxWalkDepth)
  | left + 1, path, acc =>
    match readdir s path with
    | none => .error (.couldNotOpenDir path)
    | some names =>
      let w := names.foldl (walkEntry s path) ⟨acc.1, [], acc.2⟩
      w.subdirs.foldlM (fun acc dir => pqWalkDir s left dir acc) (w.files, w.skipped)

/-- A path that continues with names a directory lists. -/
def Below (path r : CString) : Prop :=
  ∃ rest, rest ≠ [] ∧ (∀ n ∈ rest, IsName slash period n) ∧ r = path ++ trail slash rest

variable {path : CString}

theorem Below.cons {r name : CString} (hname : IsName slash period name)
    (h : Below (path ++ slash :: name) r) : Below path r := by
  obtain ⟨rest, -, hrest, rfl⟩ := h
  refine ⟨name :: rest, cons_ne_nil _ _, ?_, by simp [trail_cons]⟩
  intro n hn
  obtain rfl | hn := mem_cons.mp hn
  · exact hname
  · exact hrest n hn

/-- What one entry adds to a walk. -/
theorem walkEntry_adds (s : Storage) (path : CString) (w : Walk) {name : CString} (r : CString)
    (hname : name = ascii "." ∨ name = ascii ".." ∨ IsName slash period name) :
    (r ∈ (walkEntry s path w name).files →
      r ∈ w.files ∨ IsName slash period name ∧ r = path ++ slash :: name) ∧
    (r ∈ (walkEntry s path w name).subdirs →
      r ∈ w.subdirs ∨ IsName slash period name ∧ r = path ++ slash :: name) := by
  unfold walkEntry
  by_cases hdots : name = ascii "." ∨ name = ascii ".."
  · rw [if_pos hdots]
    exact ⟨.inl, .inl⟩
  · have hok : IsName slash period name := (or_assoc.mpr hname).resolve_left hdots
    rw [if_neg hdots]
    split_ifs with hhidden hdir hext hcand
    · exact ⟨.inl, .inl⟩
    · exact ⟨.inl, by simp [hok]⟩
    · exact ⟨by simp [hok], .inl⟩
    · exact ⟨.inl, .inl⟩
    · exact ⟨.inl, .inl⟩

theorem walkEntries_add (s : Storage) (path : CString) (names : List CString) (w : Walk)
    (r : CString)
    (hnames : ∀ n ∈ names, n = ascii "." ∨ n = ascii ".." ∨ IsName slash period n) :
    (r ∈ (names.foldl (walkEntry s path) w).files →
      r ∈ w.files ∨ ∃ n, IsName slash period n ∧ r = path ++ slash :: n) ∧
    (r ∈ (names.foldl (walkEntry s path) w).subdirs →
      r ∈ w.subdirs ∨ ∃ n, IsName slash period n ∧ r = path ++ slash :: n) := by
  induction names generalizing w with
  | nil => exact ⟨.inl, .inl⟩
  | cons n names ih =>
    have hstep := walkEntry_adds s path w r (hnames n mem_cons_self)
    have hrest := ih (walkEntry s path w n) fun m hm => hnames m (mem_cons_of_mem n hm)
    constructor
    · intro hr
      obtain hr | hr := hrest.1 hr
      · exact (hstep.1 hr).imp_right fun h => ⟨n, h⟩
      · exact .inr hr
    · intro hr
      obtain hr | hr := hrest.2 hr
      · exact (hstep.2 hr).imp_right fun h => ⟨n, h⟩
      · exact .inr hr

theorem isName_of_mem_readdir {s : Storage} {names : List CString}
    (h : readdir s path = some names) :
    ∀ n ∈ names, n = ascii "." ∨ n = ascii ".." ∨ IsName slash period n := by
  unfold readdir at h
  split at h
  · cases h
  · next loc _ =>
    split_ifs at h
    intro n hn
    rw [← Option.some.inj h, mem_cons, mem_cons] at hn
    exact hn.imp_right fun hn => hn.imp_right fun hn => s.tree.isName loc n hn

/-- **A walk lists what lies below its directory.** -/
theorem below_of_mem_pqWalkDir {s : Storage} {left : ℕ} {acc res : List CString × ℕ}
    (h : pqWalkDir s left path acc = .ok res) : ∀ r ∈ res.1, r ∈ acc.1 ∨ Below path r := by
  induction left generalizing path acc res with
  | zero => cases h
  | succ left ih =>
    rw [pqWalkDir] at h
    split at h
    · cases h
    · next names hnames =>
      have hdots := isName_of_mem_readdir hnames
      have hadds := fun r => walkEntries_add s path names ⟨acc.1, [], acc.2⟩ r hdots
      -- the directories one after the other, each with what was found before it
      have hdirs : ∀ (dirs : List CString) (a : List CString × ℕ),
        (∀ d ∈ dirs, ∃ n, IsName slash period n ∧
          d = path ++ slash :: n) → dirs.foldlM
            (fun acc dir => pqWalkDir s left dir acc) a = .ok res →
          ∀ r ∈ res.1, r ∈ a.1 ∨ Below path r := by
        intro dirs
        induction dirs with
        | nil =>
          intro a _ hrun r hr
          cases hrun
          exact .inl hr
        | cons dir dirs ihd =>
          intro a hsub hrun r hr
          rw [foldlM_cons] at hrun
          cases hone : pqWalkDir s left dir a with
          | error e =>
            rw [hone] at hrun
            cases hrun
          | ok b =>
            rw [hone] at hrun
            obtain ⟨n, hn, rfl⟩ := hsub dir mem_cons_self
            obtain hb | hb := ihd b (fun d hd => hsub d (mem_cons_of_mem _ hd)) hrun r hr
            · exact (ih hone r hb).imp_right fun hbelow => hbelow.cons hn
            · exact .inr hb
      intro r hr
      have hsub : ∀ d ∈ (names.foldl (walkEntry s path) ⟨acc.1, [], acc.2⟩).subdirs, ∃ n,
          IsName slash period n ∧ d = path ++ slash :: n :=
        fun d hd => ((hadds d).2 hd).resolve_left not_mem_nil
      obtain hfiles | hbelow := hdirs _ _ hsub h r hr
      · obtain hacc | ⟨n, hn, rfl⟩ := (hadds r).1 hfiles
        · exact .inl hacc
        · exact .inr ⟨[n], cons_ne_nil _ _, by simpa using hn, by simp [trail]⟩
      · exact .inr hbelow

/-! ### Patterns -/

/-- The first of `*?[` in a path and what follows it. -/
def fromMeta (p : CString) : CString := p.dropWhile fun b => b ∉ ascii "*?["

def maxLevels : ℕ := 128

/-- `pq_glob_bound` -/
def globBound (pattern : CString) (levels : ℕ) : Except ReadError Unit :=
  if pathMax ≤ pattern.length then .error (.patternTooLong pattern.length)
  else if maxLevels < levels then .error (.tooManyLevels levels)
  else .ok ()

/-- `pq_local_glob_bound` -/
def localGlobBound (pattern : CString) : Except ReadError Unit :=
  globBound pattern ((fromMeta pattern).count slash)

/-- `pq_remote_glob_bound` -/
def remoteGlobBound (pattern : CString) : Except ReadError Unit :=
    globBound pattern (pattern.count 42)

/-- `pq_only_seps` -/
def onlySeps : CString → Bool
  | [] => true
  | [b] => b == slash
  | b :: c :: rest =>
    if b = slash then onlySeps (c :: rest)
    else if b = 92 ∧ c = slash then onlySeps rest
    else false

/-- The separators and the dot names that are folded into the separator before them. -/
def skipFolded : CString → CString
  | [] => []
  | [b] => if b = slash then [] else [b]
  | b :: c :: rest =>
    if b = slash then skipFolded (c :: rest)
    else if b = period ∧ c = slash ∧ ¬ onlySeps (c :: rest) then skipFolded rest
    else b :: c :: rest

theorem length_skipFolded_le (p : CString) : (skipFolded p).length ≤ p.length := by
  induction p using skipFolded.induct with
  | case1 => exact le_rfl
  | case2 => simp [skipFolded]
  | case3 b hb => simp [skipFolded, hb]
  | case4 c rest ih =>
    rw [skipFolded, if_pos rfl]
    exact ih.trans (Nat.le_succ _)
  | case5 b c rest hb hdot ih =>
    rw [skipFolded, if_neg hb, if_pos hdot]
    exact ih.trans (by simp only [length_cons]; omega)
  | case6 b c rest hb hdot =>
    rw [skipFolded, if_neg hb, if_neg hdot]

/-- `pq_local_glob_fold`, after the byte `last` of the output. -/
def localGlobFoldFrom (last : Byte) : CString → CString
  | [] => []
  | b :: rest =>
    if b ≠ slash ∨ last = 92 then b :: localGlobFoldFrom b rest
    else b :: localGlobFoldFrom b (skipFolded rest)
termination_by p => p.length
decreasing_by
  · simp
  · exact Nat.lt_succ_of_le (length_skipFolded_le rest)

/-- `pq_local_glob_fold` -/
def localGlobFold (pattern : CString) : CString := localGlobFoldFrom 0 pattern

/-! ### Objects -/

/-- `pq_remote_refuse_ipv6`: what follows `://`, or the whole, up to the first separator. -/
def authority (url : CString) : CString :=
  (match (url.tails.find? fun tail => (ascii "://").isPrefixOf tail) with
  | some tail => tail.drop 3
  | none => url).takeWhile (· != slash)

/-- `pq_remote_glob_start`: the position of the first of `*?[` in the key. -/
def remoteGlobStart (url : CString) : Option ℕ :=
  if caseEq (url.take 5) (ascii "s3://") then
    match (url.drop 5).dropWhile (· != slash) with
    | [] => none
    | _ :: key => if hasGlobMeta key then some (url.length - (fromMeta key).length) else none
  else none

/-- `pq_remote_key_is_literal` -/
def remoteKeyIsLiteral (url key : CString) : Bool :=
  caseEq (url.take 5) (key.take 5) && url.drop 5 == key.drop 5

/-- The length of a scheme and its `://`. -/
def schemeLength (url : CString) : ℕ :=
  match (url.tails.find? fun tail => (ascii "://").isPrefixOf tail) with
  | some tail => url.length - tail.length + 3
  | none => 0

/-- A name that begins with one of the two hidden marks stands behind a separator. -/
def hiddenBelow : CString → Bool
  | [] => false
  | [_] => false
  | b :: c :: rest => (b == slash && (c == 95 || c == period)) || hiddenBelow (c :: rest)

/-- `pq_remote_key_hidden` -/
def remoteKeyHidden (key listUrl : CString) : Bool :=
  let slen := schemeLength listUrl
  if listUrl.length ≤ key.length ∧ caseEq (key.take slen) (listUrl.take slen) ∧
      (listUrl.drop slen).isPrefixOf (key.drop slen) then
    let p := key.drop listUrl.length
    p.head? == some 95 || p.head? == some period || hiddenBelow p
  else hiddenBelow key

/-- The module's `list_objects`, over what the bucket holds. -/
def listObjects (s : Storage) (url : CString) : Except ReadError (List CString) :=
  if caseEq (url.take 5) (ascii "s3://") then
    let bucket := (url.drop 5).takeWhile (· != slash)
    match (url.drop 5).dropWhile (· != slash) with
    | [] => .error (.notBucketPrefix url)
    | _ :: keyPrefix =>
      if bucket = [] then .error (.notBucketPrefix url)
      else .ok <| (s.objects.filter fun o => o.1 = bucket ∧ keyPrefix.isPrefixOf o.2).map fun o =>
        ascii "s3://" ++ o.1 ++ slash :: o.2
  else .error (.listingUnsupported url)

/-- `strcmp` as an order. -/
def strLe (a b : CString) : Bool := decide (a.map BitVec.toNat ≤ b.map BitVec.toNat)

section Resolve

variable (fnmatch : CString → CString → Bool)

/-- `pq_remote_glob_match` -/
def remoteGlobMatch (pattern key : CString) : Bool :=
  let slen := schemeLength pattern
  if key.length < slen ∨ ¬ caseEq (key.take slen) (pattern.take slen) then false
  else fnmatch (pattern.drop slen) (key.drop slen)

/-- The objects among the files to read. -/
def resolveRemote (s : Storage) (path : CString) : Except ReadError (List CString) :=
  let isDir := path.getLast? == some slash
  if 91 ∈ authority path then .error (.ipv6Literal path)
  else
    match remoteGlobStart path with
    | none =>
      if ¬ isDir then .ok [path]
      else if ¬ s.objstore then .error (.objstoreMissing path)
      else
        match listObjects s path with
        | .error e => .error e
        | .ok keys =>
          match keys.filter fun key => hasParquetExt key && !remoteKeyHidden key path with
          | [] => .error (.noObjects path)
          | files => .ok (files.mergeSort strLe)
    | some start =>
      if ¬ s.objstore then .error (.objstoreMissing path)
      else
        match remoteGlobBound path with
        | .error e => .error e
        | .ok () =>
          let head := (path.take start).rdropWhile (· != slash)
          match listObjects s (if head = [] then path else head) with
          | .error e => .error e
          | .ok keys =>
            match keys.find? (remoteKeyIsLiteral path) with
            | some key => .ok [key]
            | none =>
              match keys.filter fun key => hasParquetExt key &&
                remoteGlobMatch fnmatch path key with
              | [] => .error (.noObjects path)
              | files => .ok (files.mergeSort strLe)

/-- What `glob(3)` returns. -/
inductive GlobResult
  | paths (gl_pathv : List CString)
  | noMatch
  | failed

/-- `pq_local_glob`: the call of `glob(3)` under the bound of its steps. -/
abbrev LocalGlob := Storage → CString → Except ReadError GlobResult

variable (localGlob : LocalGlob)

/-- `pq_resolve_paths` -/
def pqResolvePaths (s : Storage) (path : CString) : Except ReadError (List CString) :=
  if pathIsRemote (s3Alias path) then resolveRemote fnmatch s (s3Alias path)
  else
    let path := s3Alias path
    if stat s path = some .dir then
      match pqWalkDir s (maxWalkDepth + 1) path ([], 0) with
      | .error e => .error e
      | .ok ([], skipped) => .error (.noParquetFiles path skipped)
      | .ok (files, _) => .ok (files.mergeSort strLe)
    else if hasGlobMeta path then
      match localGlobBound (localGlobFold path) with
      | .error e => .error e
      | .ok () =>
        match localGlob s (localGlobFold path) with
        | .error e => .error e
        | .ok .noMatch => .error (.noFilesMatch path)
        | .ok .failed => .error (.couldNotExpand path)
        | .ok (.paths []) => .error (.noFilesMatch path)
        | .ok (.paths found) =>
          match found.filter (pathIsCandidate s) with
          | [] => .error (.noRegularFiles path)
          | files => .ok (files.mergeSort strLe)
    else .ok [path]

/-- How a path gets among the files to read. -/
inductive ResolvesPath (s : Storage) (path : CString) : CString → Prop
  | plain (hlocal : pathIsRemote (s3Alias path) = false) (hdir : stat s (s3Alias path) ≠ some .dir)
      (hmeta : hasGlobMeta (s3Alias path) = false) : ResolvesPath s path path
  | walked {r : CString} (hlocal : pathIsRemote (s3Alias path) = false)
    (hdir : stat s (s3Alias path) = some .dir)
      (hbelow : Below (s3Alias path) r) : ResolvesPath s path r
  | globbed {r : CString} {found : List CString} (hlocal : pathIsRemote (s3Alias path) = false)
      (hmeta : hasGlobMeta (s3Alias path) = true)
      (hglob : localGlob s (localGlobFold (s3Alias path)) = .ok (.paths found)) (hr : r ∈ found) :
      ResolvesPath s path r
  | exact (hremote : pathIsRemote (s3Alias path) = true) : ResolvesPath s path (s3Alias path)
  | listed (hremote : pathIsRemote (s3Alias path) = true)
    (hdir : (s3Alias path).getLast? = some slash)
      (hs3 : caseEq ((s3Alias path).take 5) (ascii "s3://") = true) (rest : CString) :
      ResolvesPath s path (ascii "s3://" ++ ((s3Alias path).drop 5 ++ rest))
  | matched (hremote : pathIsRemote (s3Alias path) = true)
    (hstart : remoteGlobStart (s3Alias path) ≠ none)
      (hbound : remoteGlobBound (s3Alias path) = .ok ()) (key : CString)
      (hmatch : (s3Alias path).drop 5 = key ∨
        remoteGlobMatch fnmatch (s3Alias path) (ascii "s3://" ++ key) = true) :
      ResolvesPath s path (ascii "s3://" ++ key)

/-- A listing answers below the prefix that is asked for. -/
theorem exists_of_mem_listObjects {s : Storage} {r : CString} {url : CString} {keys : List CString}
    (h : listObjects s url = .ok keys) (hr : r ∈ keys) :
    caseEq (url.take 5) (ascii "s3://") = true ∧
      ∃ rest, r = ascii "s3://" ++ (url.drop 5 ++ rest) := by
  unfold listObjects at h
  split_ifs at h with hs3
  refine ⟨hs3, ?_⟩
  dsimp only at h
  split at h
  · cases h
  · next b keyPrefix hkeys =>
    split_ifs at h
    cases h
    obtain ⟨o, ho, rfl⟩ := mem_map.mp hr
    obtain ⟨-, hfilter⟩ := mem_filter.mp ho
    obtain ⟨hbucket, hpre⟩ := of_decide_eq_true hfilter
    obtain ⟨rest, hrest⟩ := isPrefixOf_iff_prefix.mp hpre
    have hb : b = slash := by
      have hhead := head?_dropWhile_not (· != slash) (url.drop 5)
      rw [hkeys] at hhead
      simpa using hhead
    refine ⟨rest, ?_⟩
    have hwhole := takeWhile_append_dropWhile (p := (· != slash)) (l := url.drop 5)
    rw [hkeys, hb] at hwhole
    rw [← hwhole, hbucket, ← hrest]
    simp

theorem mem_resolveRemote {s : Storage} {r : CString} {path : CString} {files : List CString}
    (hremote : pathIsRemote (s3Alias path) = true)
    (h : resolveRemote fnmatch s (s3Alias path) = .ok files)
    (hr : r ∈ files) : ResolvesPath fnmatch localGlob s path r := by
  unfold resolveRemote at h
  dsimp only at h
  split at h
  · cases h
  split at h
  · split at h
    · cases h
      rw [mem_singleton] at hr
      subst hr
      exact .exact hremote
    · next hdir =>
      split at h
      · cases h
      split at h
      · cases h
      · next keys hkeys =>
        split at h
        · cases h
        · cases h
          rw [mem_mergeSort] at hr
          obtain ⟨hs3, rest, rfl⟩ := exists_of_mem_listObjects hkeys (mem_filter.mp hr).1
          exact .listed hremote (by simpa using hdir) hs3 rest
  · next start hstart =>
    have hsome : remoteGlobStart (s3Alias path) ≠ none := by simp [hstart]
    split at h
    · cases h
    split at h
    · cases h
    · next hbound =>
      split at h
      · cases h
      · next keys hkeys =>
        split at h
        · next key hfind =>
          cases h
          rw [mem_singleton] at hr
          subst hr
          obtain ⟨-, rest, rfl⟩ := exists_of_mem_listObjects hkeys (mem_of_find?_eq_some hfind)
          have hliteral := find?_some hfind
          rw [remoteKeyIsLiteral, Bool.and_eq_true, beq_iff_eq] at hliteral
          exact .matched hremote hsome hbound _ (.inl hliteral.2)
        · split at h
          · cases h
          · cases h
            rw [mem_mergeSort] at hr
            obtain ⟨hmem, hfilter⟩ := mem_filter.mp hr
            obtain ⟨-, rest, rfl⟩ := exists_of_mem_listObjects hkeys hmem
            rw [Bool.and_eq_true] at hfilter
            exact .matched hremote hsome hbound _ (.inr hfilter.2)

theorem pathIsRemote_s3 (rest : CString) : pathIsRemote (ascii "s3://" ++ rest) = true := by
  have htake : (ascii "s3://" ++ rest).take "s3://".length = ascii "s3://" := rfl
  rw [pathIsRemote, any_cons, htake, Bool.or_eq_true]
  exact .inl (by decide)

theorem s3Alias_of_local {path : CString} (h : pathIsRemote (s3Alias path) = false) :
    s3Alias path = path := by
  unfold s3Alias at h ⊢
  split
  · next halias =>
    rw [if_pos halias, pathIsRemote_s3] at h
    cases h
  · rfl

/-- **How a path gets among the files to read.** -/
theorem mem_pqResolvePaths {s : Storage} {r : CString} {path : CString} {files : List CString}
    (h : pqResolvePaths fnmatch localGlob s path = .ok files) (hr : r ∈ files) :
    ResolvesPath fnmatch localGlob s path r := by
  unfold pqResolvePaths at h
  split at h
  · next hremote => exact mem_resolveRemote fnmatch localGlob hremote h hr
  · next hremote =>
    have hlocal : pathIsRemote (s3Alias path) = false := by simpa using hremote
    dsimp only at h
    split at h
    · next hdir =>
      split at h
      · cases h
      · cases h
      · next files' skipped hne hwalk =>
        cases h
        rw [mem_mergeSort] at hr
        exact .walked hlocal hdir ((below_of_mem_pqWalkDir hwalk r hr).resolve_left not_mem_nil)
    · next hdir =>
      split at h
      · next hmeta =>
        split at h
        · cases h
        split at h
        · cases h
        · cases h
        · cases h
        · cases h
        · next found hne hglob =>
          split at h
          · cases h
          · cases h
            rw [mem_mergeSort] at hr
            exact .globbed hlocal hmeta hglob (mem_filter.mp hr).1
      · next hmeta =>
        cases h
        rw [mem_singleton] at hr
        subst hr
        have hself := s3Alias_of_local hlocal
        have hplain : ResolvesPath fnmatch localGlob s path path := .plain hlocal hdir
          (by simpa using hmeta)
        rwa [hself]

end Resolve

/-! ### What a path names -/

inductive FileRef
  | inTree (loc : Location)
  /-- the bucket and the key -/
  | object (name : CString)
  deriving DecidableEq

/-- The file that is opened under a path. -/
def fileOf (s : Storage) (p : CString) : Option FileRef :=
  if pathIsRemote p then
    if caseEq (p.take 5) (ascii "s3://") then some (.object (p.drop 5)) else none
  else if stat s p = some .file then (resolve s p).map .inTree
  else none

/-- `ice_dirname` -/
def iceDirname (path : CString) : CString :=
  if slash ∉ path then ascii "."
  else if slash ∉ path.tail then ascii "/"
  else (path.rdropWhile (· != slash)).dropLast

/-- `ice_actual_location` -/
def iceActualLocation (metadataPath : CString) : CString :=
    iceDirname (iceDirname (s3Alias metadataPath))

/-- A file under the location of an Iceberg table. -/
def UnderLocation (s : Storage) (location : CString) (f : FileRef) : Prop :=
  if pathIsRemote location then
    ∃ name, f = .object name ∧ caseEq (location.take 5) (ascii "s3://") = true ∧
      location.drop 5 ++ [slash] <+: name
  else
    ∃ loc rest, resolve s location = some loc ∧ rest ≠ [] ∧ f = .inTree (loc ++ rest)

end PgColumnar.Tier
