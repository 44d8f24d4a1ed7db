import PgColumnar.Lib.MapM
import PgColumnar.Tier.Reader

/-!
# The path check of `tier_partition`

`tier_partition` writes a partition to a file and refuses a path that a foreign table of the
database reads.  The target and the path of each table are compared as written, folded, resolved
against the data directory, and resolved and folded; a pattern is matched by `path_glob_matches`.
The walk of `glob(3)` over the tree that holds only the target is a parameter.

## Main definitions

* `rowHit` — one table against the target, in each of its forms.
* `pathCheck`, `tierPartition` — the loop over the tables, and the function.

## Main results

* `loop_ne_none` — one row that refuses is enough.
-/

namespace PgColumnar.Tier

open Bytes Iceberg Paths List

/-! ### Normal forms -/

/-- `p ~ '^(s3|gs|az|https?)://'` -/
def remoteText (p : CString) : Bool :=
  ["s3://", "gs://", "az://", "https://", "http://"].any fun scheme => (ascii scheme).isPrefixOf p

/-- The length of `^[^:]*://[^/]*` in a URL whose scheme has `n` bytes with its mark. -/
def hostLength (n : ℕ) (p : CString) : ℕ := n + ((p.drop n).takeWhile (· != slash)).length

def lowerHost (n : ℕ) (p : CString) : CString :=
    (p.take (hostLength n p)).map lower ++ p.drop (hostLength n p)

/-- One form of a remote path; a local path as it is. -/
def normPath (p : CString) : CString :=
  if caseEq (p.take 5) (ascii "s3://") then ascii "s3://" ++ p.drop 5
  else if pathIsS3Alias p then ascii "s3://" ++ p.drop 6
  else if caseEq (p.take 7) (ascii "http://") then lowerHost 7 p
  else if caseEq (p.take 8) (ascii "https://") then lowerHost 8 p
  else if caseEq (p.take 5) (ascii "gs://") || caseEq (p.take 5) (ascii "az://") then
    (p.take 2).map lower ++ p.drop 2
  else p

/-- `regexp_replace(w, '\\(.)', '\1', 'g')` -/
def unescape : CString → CString
  | [] => []
  | [b] => [b]
  | b :: c :: rest => if b = 92 then c :: unescape rest else b :: unescape (c :: rest)

/-- The dot names of a pattern are found behind their backslashes. -/
def dotName (w : CString) : CString :=
    if unescape w ∈ [ascii ".", ascii ".."] then unescape w else w

/-- The names of a path; `table` is set for the path of a table. -/
def pathNames (table : Bool) (p : CString) : List CString :=
  if table ∧ hasGlobMeta p then (segments p).map dotName else segments p

/-- The lexical form of a local path. -/
def lexical (table : Bool) (p : CString) : CString :=
  if p = [] ∨ remoteText p then p
  else
    text slash period (p.head? == some slash) (p.getLast? == some slash)
      (normal period (p.head? == some slash) (pathNames table p))

def rtrim (p : CString) : CString := p.rdropWhile (· == slash)

/-! ### The matcher -/

structure Session where
  fnmatch : CString → CString → Bool
  /-- `pq_local_glob_walk` -/
  localGlobWalk : CString → CString → Except ReadError Bool
  dataDir : CString
  cwd : Location
  cwd_names : ∀ n ∈ cwd, IsName slash period n
  /-- `pg_has_role(current_user, 'pg_read_all_settings', 'USAGE')` -/
  readsSettings : Bool

/-- `getcwd` into `MAXPGPATH` bytes -/
def getcwd (e : Session) : Option CString :=
  if (text slash period true false e.cwd).length <
    1024 then some (text slash period true false e.cwd) else none

/-- Whether the data directory names the working directory plainly. -/
def plainDataDir (e : Session) : Bool :=
    !(e.dataDir.any fun b => b ∈ ascii "*?[\\") && getcwd e == some e.dataDir

/-- `pq_local_resolve` -/
def localResolve (e : Session) (p : CString) : CString :=
  if p.head? = some slash ∨ p = [] then p else e.dataDir ++ slash :: p

/-- `pq_local_glob_match` -/
def localGlobMatch (e : Session) (pattern path : CString) : Except ReadError Bool :=
  match localGlobBound pattern with
  | .error err => .error err
  | .ok () =>
    if pathMax ≤ path.length then .ok false
    else if pattern.head? ≠ some slash ∧ ¬ plainDataDir e then .ok true
    else e.localGlobWalk (localResolve e pattern) (localResolve e path)

/-- `pgcolumnar_path_glob_matches` -/
def pathGlobMatches (e : Session) (pattern path : CString) : Except ReadError Bool :=
  if pathIsRemote (s3Alias pattern) then
    if remoteGlobStart (s3Alias pattern) = none ∨ ¬ pathIsRemote (s3Alias path) then .ok false
    else
      match remoteGlobBound (s3Alias pattern) with
      | .error err => .error err
      | .ok () => .ok (remoteGlobMatch e.fnmatch (s3Alias pattern) (s3Alias path))
  else if pathIsRemote (s3Alias path) ∨ ¬ hasGlobMeta (s3Alias pattern) then .ok false
  else localGlobMatch e (s3Alias pattern) (s3Alias path)

/-! ### The rows -/

inductive Handler
  | parquet
  | iceberg
  | other
  deriving DecidableEq

structure ForeignTable where
  relid : ℕ
  handler : Handler
  ftoptions : List CString

/-- The part before the last separator, as the check cuts it. -/
def cutLast (m : CString) : CString :=
  if slash ∉ m then ascii "."
  else if m.head? = some slash ∧ slash ∉ m.tail then ascii "/"
  else (m.rdropWhile (· != slash)).dropLast

/-- The location of an Iceberg table, with a separator behind it. -/
def locationOption (metadataPath : CString) : CString :=
  let d := cutLast (cutLast metadataPath)
  if d.getLast? = some slash then d else d ++ [slash]

/-- What an option of a table says it reads. -/
def optionPath (handler : Handler) (opt : CString) : Option CString :=
  match handler with
  | .parquet => if (ascii "path=").isPrefixOf opt then some (opt.drop 5) else none
  | .iceberg =>
    if (ascii "metadata_path=").isPrefixOf opt then some (locationOption (opt.drop 14)) else none
  | .other => none

/-- One table against the target; the names of the columns are the source's. -/
structure Row where
  relid : ℕ
  ice : Bool
  opath : CString
  tp : CString
  fp : CString
  rtp : Option CString
  rfp : Option CString

def Row.ntp (r : Row) : CString := lexical false r.tp
def Row.nfp (r : Row) : CString := lexical true r.fp
def Row.nrtp (r : Row) : Option CString := r.rtp.map (lexical false)
def Row.nrfp (r : Row) : Option CString := r.rfp.map (lexical true)

/-- The setting, where the caller may read it. -/
def Session.dd (e : Session) : Option CString := if e.readsSettings then some e.dataDir else none

/-- A path that is resolved: without the setting only one that stays as it is. -/
def resolved (dd : Option CString) (p : CString) : Option CString :=
  if p = [] ∨ p.head? = some slash ∨ remoteText p then some p else dd.map fun d => d ++ slash :: p

def mkRow (e : Session) (target : CString) (relid : ℕ) (ice : Bool) (opath : CString) : Row where
  relid := relid
  ice := ice
  opath := opath
  tp := normPath target
  fp := normPath opath
  rtp := resolved e.dd (normPath target)
  rfp := resolved e.dd (normPath opath)

def rowsOf (e : Session) (target : CString) (t : ForeignTable) : List Row :=
  t.ftoptions.filterMap fun opt => (optionPath t.handler opt).map
    (mkRow e target t.relid (t.handler == .iceberg))

/-! ### What refuses a path -/

/-- `t` lies below the local path `f`. -/
def below (t f : CString) : Bool := !remoteText f && f != [] && (rtrim f ++ [slash]).isPrefixOf t

def sameOrBelow (t f : CString) : Bool := t == f || below t f

/-- A comparison with `NULL` refuses nothing. -/
def sameOrBelow? : Option CString → Option CString → Bool
  | some t, some f => sameOrBelow t f
  | _, _ => false

def hitForms (r : Row) : Bool :=
  r.tp == r.fp || (remoteText r.fp && r.fp.getLast? == some slash && r.fp.isPrefixOf r.tp) ||
    below r.tp r.fp ||
    sameOrBelow r.ntp r.nfp || sameOrBelow? r.rtp r.rfp || sameOrBelow? r.nrtp r.nrfp

/-- A table on a relative pattern, with the target not below it. -/
def leftToGlob (r : Row) : Bool :=
  hasGlobMeta r.fp && r.fp.head? != some slash &&
    !decide (slash :: rtrim r.nfp ++ [slash] <:+: slash :: r.ntp)

/-- A relative path that cannot be resolved. -/
def sessionRule (e : Session) (r : Row) : Except ReadError Bool :=
  if ¬ remoteText r.tp ∧ ¬ remoteText r.fp ∧ r.tp ≠ [] ∧ r.fp ≠ [] ∧
      (r.tp.head? ≠ some slash ∨ r.fp.head? ≠ some slash) ∧ ¬ leftToGlob r then
    match e.dd with
    | none => .ok true
    | some _ => pathGlobMatches e (ascii "?") []
  else .ok false

def rowHit (e : Session) (r : Row) : Except ReadError Bool :=
    if hitForms r then .ok true else sessionRule e r

/-! ### The loop -/

inductive TierError
  | refused (message : CString)
  | matcher (err : ReadError)
  /-- a pattern too large to match, with the table and its path -/
  | tooLarge (err : ReadError) (relid : ℕ) (opath : CString) (ice : Bool)
  | isRead (path : CString) (relid : ℕ) (opath : CString) (ice : Bool)

/-- What the loop has found; the source's `kind` and the variables beside it. -/
inductive Found
  | limit (err : ReadError) (r : Row)
  | read (r : Row)

/-- The matcher on one spelling, in a block that catches the limit. -/
def matchPass (e : Session) (r : Row) (pattern path : CString) (found : Option Found) :
    Except TierError (Bool × Option Found) :=
  match pathGlobMatches e pattern path with
  | .ok hit => .ok (hit, found)
  | .error err =>
    if err.isLimit then .ok (false, found.or (some (.limit err r)))
    else .error (.matcher err)

/-- The pattern as written, then folded. -/
def matchRow (e : Session) (r : Row) (found : Option Found) :
    Except TierError (Bool × Option Found) := do
  let first ← matchPass e r r.fp r.tp found
  if first.1 ∨ (r.nfp = r.fp ∧ r.ntp = r.tp) then return first
  matchPass e r r.nfp r.ntp first.2

def loop (e : Session) : List (Row × Bool) → Option Found → Except TierError (Option Found)
  | [], found => .ok found
  | (r, true) :: _, _ => .ok (some (.read r))
  | (r, false) :: rest, found => do
    let res ← matchRow e r found
    if res.1 then return some (.read r)
    loop e rest res.2

/-- `ORDER BY h.hit IS TRUE DESC, h.relid` -/
def rowLe (a b : Row × Bool) : Bool := if a.2 = b.2 then decide (a.1.relid ≤ b.1.relid) else a.2

def candidates (e : Session) (target : CString) (tables : List ForeignTable) :
    Except ReadError (List (Row × Bool)) := do
  let rows ← (tables.flatMap (rowsOf e target)).mapM fun r => do return (r, ← rowHit e r)
  return (rows.filter fun r => r.2 || hasGlobMeta r.1.fp).mergeSort rowLe

def pathCheck (e : Session) (target : CString) (tables : List ForeignTable) :
    Except TierError Unit :=
  match candidates e target tables with
  | .error err => .error (.matcher err)
  | .ok rows =>
    match loop e rows none with
    | .error err => .error err
    | .ok none => .ok ()
    | .ok (some (.limit err r)) => .error (.tooLarge err r.relid r.opath r.ice)
    | .ok (some (.read r)) => .error (.isRead target r.relid r.opath r.ice)

/-- `pgcolumnar.tier_partition`: the refusals that come first, the path check, then the export and
the statements that follow it, which change the world `W`. -/
def tierPartition {W : Type} (e : Session) (refusals : Except TierError Unit)
    (move : ExceptT TierError (StateM W) ℕ) (target : CString) (tables : List ForeignTable) :
    ExceptT TierError (StateM W) ℕ := do
  liftExcept refusals
  liftExcept (pathCheck e target tables)
  move
where
  liftExcept (x : Except TierError Unit) : ExceptT TierError (StateM W) Unit := ExceptT.mk (pure x)

/-! ### One row is enough -/

/-- A row that a comparison refuses or that the matcher does not let pass. -/
def Refuses (e : Session) (r : Row) : Prop :=
  rowHit e r ≠ .ok false ∨ hasGlobMeta r.fp = true ∧ pathGlobMatches e r.fp r.tp ≠ .ok false

section Loop

variable {e : Session} {r : Row} {rows : List (Row × Bool)} {found : Option Found}
  {res : Bool × Option Found}

theorem matchPass_found {pattern : CString} {path : CString}
    (h : matchPass e r pattern path found = .ok res) (hfound : found ≠ none) : res.2 ≠ none := by
  unfold matchPass at h
  split at h
  · cases h
    exact hfound
  · split at h
    · cases h
      intro hnone
      exact hfound (Option.or_eq_none_iff.mp hnone).1
    · cases h

/-- The matcher finds, meets its limit, or raises. -/
theorem matchPass_of_ne {pattern : CString} {path : CString}
    (h : matchPass e r pattern path found = .ok res)
    (hmatch : pathGlobMatches e pattern path ≠ .ok false) :
    res.1 = true ∨ res.2 ≠ none := by
  unfold matchPass at h
  split at h
  · next hit heq =>
    cases h
    cases hit with
    | true => exact .inl rfl
    | false => exact absurd heq hmatch
  · split at h
    · cases h
      exact .inr fun hnone => by simp at hnone
    · cases h

theorem matchRow_found (h : matchRow e r found = .ok res) (hfound : found ≠ none) :
    res.2 ≠ none := by
  unfold matchRow at h
  cases hfirst : matchPass e r r.fp r.tp found with
  | error err =>
    rw [hfirst] at h
    cases h
  | ok first =>
    have hne := matchPass_found hfirst hfound
    rw [hfirst] at h
    change (if _ then _ else _) = _ at h
    split at h
    · cases h
      exact hne
    · exact matchPass_found h hne

theorem matchRow_of_ne (h : matchRow e r found = .ok res)
    (hmatch : pathGlobMatches e r.fp r.tp ≠ .ok false) : res.1 = true ∨ res.2 ≠ none := by
  unfold matchRow at h
  cases hfirst : matchPass e r r.fp r.tp found with
  | error err =>
    rw [hfirst] at h
    cases h
  | ok first =>
    have hne := matchPass_of_ne hfirst hmatch
    rw [hfirst] at h
    change (if _ then _ else _) = _ at h
    split at h
    · cases h
      exact hne
    · next hpass =>
      exact .inr (matchPass_found h (hne.resolve_left fun htrue => hpass (.inl htrue)))

theorem loop_found (hfound : found ≠ none) : loop e rows found ≠ .ok none := by
  induction rows generalizing found with
  | nil => exact fun heq => hfound (Except.ok.inj heq)
  | cons row rest ih =>
    obtain ⟨r, hit⟩ := row
    cases hit with
    | true => exact fun heq => by cases heq
    | false =>
      rw [loop]
      cases hrow : matchRow e r found with
      | error err => exact fun heq => by cases heq
      | ok res =>
        have hnext := ih (matchRow_found hrow hfound)
        change (if _ then _ else _) ≠ _
        split
        · exact fun heq => by cases heq
        · exact hnext

/-- **One row that refuses is enough.** -/
theorem loop_ne_none (r : Row) (hit : Bool) (hmem : (r, hit) ∈ rows)
    (hrow : hit = true ∨ pathGlobMatches e r.fp r.tp ≠ .ok false) :
    loop e rows found ≠ .ok none := by
  induction rows generalizing found with
  | nil => cases hmem
  | cons row rest ih =>
    obtain ⟨r', hit'⟩ := row
    cases hit' with
    | true => exact fun heq => by cases heq
    | false =>
      rw [loop]
      cases hres : matchRow e r' found with
      | error err => exact fun heq => by cases heq
      | ok res =>
        change (if _ then _ else _) ≠ _
        split
        · exact fun heq => by cases heq
        · next hpass =>
          obtain heq | hrest := mem_cons.mp hmem
          · cases heq
            have hmatch := hrow.resolve_left (by simp)
            exact loop_found ((matchRow_of_ne hres hmatch).resolve_left hpass)
          · exact ih hrest

/-- A row of some table that refuses makes the check raise. -/
theorem pathCheck_of_refuses {target : CString} {tables : List ForeignTable} {t : ForeignTable}
    (ht : t ∈ tables)
    (hrow : r ∈ rowsOf e target t) (h : Refuses e r) :
    ∃ err, pathCheck e target tables = .error err := by
  unfold pathCheck
  cases hcand : candidates e target tables with
  | error err => exact ⟨_, rfl⟩
  | ok cand =>
    unfold candidates at hcand
    cases hrows : (tables.flatMap (rowsOf e target)).mapM
      (fun r => do return (r, ← rowHit e r)) with
    | error err =>
      rw [hrows] at hcand
      cases hcand
    | ok rows =>
      rw [hrows] at hcand
      cases hcand
      have hloop : loop e ((rows.filter fun r => r.2 || hasGlobMeta r.1.fp).mergeSort rowLe)
        none ≠ .ok none := by
        obtain ⟨y, hy, heq⟩ := MapM.exists_of_mem hrows (mem_flatMap.mpr ⟨t, ht, hrow⟩)
        cases hhit : rowHit e r with
        | error err =>
          rw [hhit] at heq
          cases heq
        | ok hit =>
          rw [hhit] at heq
          cases heq
          have hcase : hit = true ∨ hasGlobMeta r.fp = true ∧
            pathGlobMatches e r.fp r.tp ≠ .ok false := by
            obtain hne | hglob := h
            · exact .inl (by simpa [hhit] using hne)
            · exact .inr hglob
          refine loop_ne_none r hit ?_ (hcase.imp_right And.right)
          rw [mem_mergeSort, mem_filter]
          refine ⟨hy, ?_⟩
          obtain htrue | hglob := hcase
          · simp [htrue]
          · simp [hglob.1]
      dsimp only
      cases hres : loop e ((rows.filter fun r => r.2 || hasGlobMeta r.1.fp).mergeSort rowLe)
        none with
      | error err => exact ⟨err, rfl⟩
      | ok found =>
        cases found with
        | none => exact absurd hres hloop
        | some found =>
          cases found with
          | limit err r | read r => exact ⟨_, rfl⟩

/-- A check that raises leaves the world as it was. -/
theorem tierPartition_raises {target : CString} {tables : List ForeignTable} {W : Type}
    {refusals : Except TierError Unit}
    {move : ExceptT TierError (StateM W) ℕ} (h : ∃ err, pathCheck e target tables = .error err)
    (w : W) :
    ∃ err, (tierPartition e refusals move target tables).run.run w = (.error err, w) := by
  obtain ⟨err, herr⟩ := h
  cases refusals with
  | error first => exact ⟨first, rfl⟩
  | ok _ =>
    refine ⟨err, ?_⟩
    unfold tierPartition
    rw [herr]
    rfl

end Loop

end PgColumnar.Tier
