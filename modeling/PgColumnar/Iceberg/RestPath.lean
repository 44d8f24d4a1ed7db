import PgColumnar.Iceberg.Rebase
import PgColumnar.Lib.Paths
import PgColumnar.Lib.Split

/-!
# Namespaces in the request path of a REST catalog

A namespace is a list of levels.  It goes into the request path as one segment, the levels
percent-encoded and joined with the catalog's separator; the catalog decodes the segment and splits
it at the separator again (`columnar_iceberg_rest.c`).  A level that holds the separator, a segment
that is empty and one that is a dot segment are refused.

Characters are those of UTF-8.

## Main definitions

* `restRequest` — the path of a request; the levels are escaped and joined.
* `ReadApart` — the catalog splits it as it was meant.

## Main results

* `readApart_iff` — exactly when it does.
-/

namespace PgColumnar.Iceberg

open Bytes List Percent

/-- What is refused. -/
inductive RestError where
  | invalidSeparator (advertised : CString)
  | emptySeparator
  | invalidPrefix (catalogPrefix : CString)
  | onlyEmptyLevel
  | dotNamespace (segment : CString)
  | levelHoldsSeparator (level : CString)
  | emptyTable
  | dotTable (table : CString)
  deriving DecidableEq

/-! ### Encoding -/

/-- The unreserved characters of RFC 3986. -/
def unreserved (c : Byte) : Bool :=
  (65 ≤ c.toNat && c.toNat ≤ 90) || (97 ≤ c.toNat && c.toNat ≤ 122) ||
    (48 ≤ c.toNat && c.toNat ≤ 57) || c == 45 || c == 46 || c == 95 || c == 126

/-- `rest_pct_encode` -/
def restPctEncode (s : CString) : CString := Percent.encode unreserved s

/-- The loop of `rest_encode_separator`: the decoded bytes. -/
def decodeSeparator : CString → Option CString
  | [] => some []
  | c :: rest =>
    if c = 37 then
      match rest with
      | h :: l :: rest =>
        match Percent.escape c h l with
        | some b => if b = 0 then none else (decodeSeparator rest).map (b :: ·)
        | none => none
      | _ => none
    else if c = 0 then none
    else (decodeSeparator rest).map (c :: ·)

/-- `rest_encode_separator`: every byte escaped, and the bytes themselves. -/
def restEncodeSeparator (advertised : CString) : Except RestError (CString × CString) :=
  match decodeSeparator advertised with
  | none => .error (.invalidSeparator advertised)
  | some [] => .error .emptySeparator
  | some dec => .ok (Percent.encode (fun _ => false) dec, dec)

/-- `rest_is_dot_segment` -/
def restIsDotSegment (s : CString) : Bool := s == ascii "." || s == ascii ".."

/-- `rest_append_prefix`: what it appends. -/
def restAppendPrefix (catalogPrefix : CString) : Except RestError CString :=
  match (catalogPrefix.dropWhile (· == slash)).rdropWhile (· == slash) with
  | [] => .ok []
  | p =>
    if (segments p).any fun piece => piece == [] || restIsDotSegment piece then
      .error (.invalidPrefix catalogPrefix)
    else
      .ok ((segments p).flatMap fun piece => restPctEncode piece ++ [slash])

/-- What `GET /v1/config` says about the paths. -/
structure RestCatalogConfig where
  base : CString
  sep : CString
  rawsep : CString
  deriving DecidableEq

/-- `rest_catalog_config`, from the prefix and the separator that the catalog advertises. -/
def restCatalogConfig (catalogPrefix separator : Option CString) :
    Except RestError RestCatalogConfig := do
  let pieces ← (catalogPrefix.map restAppendPrefix).getD (.ok [])
  let (sep, rawsep) ← restEncodeSeparator (separator.getD (ascii "%1F"))
  return ⟨ascii "/v1/" ++ pieces, sep, rawsep⟩

/-! ### Levels -/

/-- `pg_mblen` in UTF-8, by the first byte. -/
def mblen (b : Byte) : ℕ :=
  if b.toNat < 0xC0 then 1
  else if b.toNat < 0xE0 then 2
  else if b.toNat < 0xF0 then 3
  else if b.toNat < 0xF8 then 4
  else 1

/-- `rest_char_len` -/
def restCharLen (p : CString) : ℕ :=
  match p with
  | [] => 0
  | b :: _ => min (mblen b) p.length

/-- The inner loop of `rest_level_holds_separator`: whole characters until the separator is covered.
A character has at least one byte, so `seplen` rounds are enough. -/
def coverLoop (p : CString) (seplen : ℕ) : ℕ → ℕ → ℕ
  | 0, covered => covered
  | fuel + 1, covered =>
    if covered < seplen then coverLoop p seplen fuel (covered + restCharLen (p.drop covered))
    else covered

/-- `rest_level_holds_separator`, with the bytes of the current character still to be skipped. -/
def holdsSeparator (rawsep : CString) : ℕ → CString → Bool
  | _, [] => false
  | 0, b :: s =>
    (rawsep.isPrefixOf (b :: s) &&
        coverLoop (b :: s) rawsep.length rawsep.length 0 == rawsep.length) ||
      holdsSeparator rawsep (restCharLen (b :: s) - 1) s
  | n + 1, _ :: s => holdsSeparator rawsep n s

def restLevelHoldsSeparator (level rawsep : CString) : Bool := holdsSeparator rawsep 0 level

/-- `rest_unnameable_level` -/
def restUnnameableLevel (levels : List CString) (cc : RestCatalogConfig) : Option CString :=
  levels.find? fun level => restLevelHoldsSeparator level cc.rawsep

/-- `rest_refuse_only_empty_level` -/
def restRefuseOnlyEmptyLevel (levels : List CString) : Except RestError Unit :=
  if levels = [[]] then .error .onlyEmptyLevel else .ok ()

/-- `rest_refuse_empty_table` and `rest_refuse_dot_table` -/
def restRefuseTable (table : CString) : Except RestError Unit :=
  if table = [] then .error .emptyTable
  else if restIsDotSegment table then .error (.dotTable table)
  else .ok ()

/-- `rest_refuse_dot_namespace`, without the separator for a namespace of one level only. -/
def restRefuseDotNamespace (levels : List CString) (rawsep : Option CString) :
    Except RestError Unit :=
  if rawsep = none ∧ levels.length ≠ 1 then .ok ()
  else if restIsDotSegment (Split.join (rawsep.getD []) levels) then
    .error (.dotNamespace (Split.join (rawsep.getD []) levels))
  else .ok ()

/-- `rest_append_levels`: what it appends. -/
def restAppendLevels (levels : List CString) (cc : RestCatalogConfig) (inPath : Bool) :
    Except RestError CString := do
  if inPath then
    restRefuseOnlyEmptyLevel levels
    restRefuseDotNamespace levels (some cc.rawsep)
  match restUnnameableLevel levels cc with
  | some bad => .error (.levelHoldsSeparator bad)
  | none => .ok (Split.join cc.sep (levels.map restPctEncode))

/-- The path of a `loadTable` request, or of a table list. -/
def restPath (cc : RestCatalogConfig) (levels : List CString) (table : Option CString) :
    Except RestError CString := do
  let segment ← restAppendLevels levels cc true
  return cc.base ++ ascii "namespaces/" ++ segment ++
    match table with
    | some table => ascii "/tables/" ++ restPctEncode table
    | none => ascii "/tables"

/-- The checks that need no configuration, then the path. -/
def restRequest (cc : RestCatalogConfig) (levels : List CString) (table : Option CString) :
    Except RestError CString := do
  restRefuseOnlyEmptyLevel levels
  restRefuseDotNamespace levels none
  (table.map restRefuseTable).getD (.ok ())
  restPath cc levels table

/-! ### The catalog -/

/-- How the catalog reads a path: the segment behind its base and `namespaces` is decoded and split
at the separator. -/
def catalogLevels (cc : RestCatalogConfig) (path : CString) : Option (List CString) :=
  (segments path)[(segments cc.base).length]?.map fun segment =>
    Split.split cc.rawsep (Percent.decode segment)

/-- The segments behind the leading slash are not empty and not dot segments, decoded or not, and
the path has no query and no fragment. -/
structure CleanPath (path : CString) : Prop where
  rooted : ∃ rest, path = slash :: rest ∧ ∀ segment ∈ segments rest, segment ≠ [] ∧
    restIsDotSegment segment = false ∧ restIsDotSegment (Percent.decode segment) = false
  query : 63 ∉ path
  fragment : 35 ∉ path

/-! ### Segments of a path -/

variable {ns : List CString}

theorem segments_trail_append (hns : ∀ n ∈ ns, slash ∉ n) (rest : CString) :
    segments (Paths.trail slash ns ++ slash :: rest) = [] :: (ns ++ segments rest) := by
  induction ns with
  | nil => exact segments_append not_mem_nil rest
  | cons n ns ih =>
    have ih := ih fun m hm => hns m (mem_cons_of_mem n hm)
    have hn := hns n mem_cons_self
    -- what follows the first name begins with a slash as well
    obtain ⟨u, hu⟩ : ∃ u, Paths.trail slash ns ++ slash :: rest = slash :: u := by
      cases ns with
      | nil => exact ⟨rest, rfl⟩
      | cons m ms => exact ⟨_, congrArg (· ++ slash :: rest) (Paths.trail_cons m ms)⟩
    rw [hu] at ih
    have hnil : segments (slash :: u) = [] :: segments u := segments_append not_mem_nil u
    rw [hnil] at ih
    have hu' : segments u = ns ++ segments rest := (List.cons.inj ih).2
    rw [Paths.trail_cons, cons_append, cons_append, append_assoc, hu]
    have hfirst : segments (slash :: (n ++ slash :: u)) = [] :: segments (n ++ slash :: u) :=
      segments_append not_mem_nil _
    rw [hfirst, segments_append hn, hu']
    rfl

variable {c : Byte}

theorem mem_trail (h : c ∈ Paths.trail slash ns) : c = slash ∨ ∃ n ∈ ns, c ∈ n := by
  obtain ⟨n, hn, hc⟩ := mem_flatMap.mp h
  obtain rfl | hc := mem_cons.mp hc
  · exact .inl rfl
  · exact .inr ⟨n, hn, hc⟩

theorem mem_join {α : Type} {sep : List α} {c : α} {xs : List (List α)}
    (h : c ∈ Split.join sep xs) : c ∈ sep ∨ ∃ x ∈ xs, c ∈ x := by
  induction xs with
  | nil => cases h
  | cons x xs ih =>
    cases xs with
    | nil => exact .inr ⟨x, by simp, h⟩
    | cons y ys =>
      rw [Split.join_cons_cons, append_assoc, mem_append, mem_append] at h
      obtain h | h | h := h
      · exact .inr ⟨x, by simp, h⟩
      · exact .inl h
      · obtain h | ⟨z, hz, hc⟩ := ih h
        · exact .inl h
        · exact .inr ⟨z, mem_cons_of_mem x hz, hc⟩

theorem join_eq_nil {sep : CString} (hsep : sep ≠ []) {xs : List CString}
    (h : Split.join sep xs = []) :
    xs = [] ∨ xs = [[]] := by
  match xs with
  | [] => exact .inl rfl
  | [x] => exact .inr (congrArg (fun y => [y]) h)
  | x :: y :: ys =>
    rw [Split.join_cons_cons] at h
    simp [hsep] at h

/-! ### Encoded texts -/

theorem decode_restPctEncode (s : CString) : Percent.decode (restPctEncode s) = s :=
  decode_encode (by decide) s

/-- The bytes that mean something in a path do not occur in an encoded text. -/
theorem notMem_restPctEncode (hc : c ∈ [slash, 63, 35]) (s : CString) : c ∉ restPctEncode s := by
  have h : ∀ c ∈ [slash, 63, 35], unreserved c = false ∧ c ≠ 37 ∧
      ∀ d < 16, c ≠ Percent.hexUpper d := by decide
  obtain ⟨hkeep, hpct, hhex⟩ := h c hc
  exact notMem_encode hkeep hpct hhex s

theorem notMem_encodedSeparator (hc : c ∈ [slash, 63, 35]) (s : CString) :
    c ∉ Percent.encode (fun _ => false) s := by
  have h : ∀ c ∈ [slash, 63, 35], c ≠ 37 ∧ ∀ d < 16, c ≠ Percent.hexUpper d := by decide
  obtain ⟨hpct, hhex⟩ := h c hc
  exact notMem_encode rfl hpct hhex s

/-- **Decoding the joined levels gives the levels joined.** -/
theorem decode_join (rawsep : CString) (levels : List CString) :
    Percent.decode (Split.join (Percent.encode (fun _ => false) rawsep)
      (levels.map restPctEncode)) =
      Split.join rawsep levels := by
  induction levels with
  | nil => rfl
  | cons l ls ih =>
    cases ls with
    | nil => exact decode_restPctEncode l
    | cons m ms =>
      rw [map_cons, map_cons, Split.join_cons_cons, Split.join_cons_cons, append_assoc,
        restPctEncode, decode_encode_append (by decide), decode_encode_append rfl, ← append_assoc,
        ← map_cons, ih]

variable {s : CString}

theorem decode_dotSegment (h : restIsDotSegment s = true) : Percent.decode s = s := by
  simp only [restIsDotSegment, Bool.or_eq_true, beq_iff_eq] at h
  obtain rfl | rfl := h <;> rfl

/-- What a path segment must be. -/
def CleanSegment (s : CString) : Prop :=
  s ≠ [] ∧ restIsDotSegment s = false ∧ restIsDotSegment (Percent.decode s) = false

theorem cleanSegment_of_decode (hne : Percent.decode s ≠ [])
    (hdot : restIsDotSegment (Percent.decode s) = false) : CleanSegment s := by
  refine ⟨?_, ?_, hdot⟩
  · intro h
    rw [h] at hne
    exact hne rfl
  · rw [← Bool.not_eq_true]
    intro h
    rw [decode_dotSegment h, h] at hdot
    cases hdot

theorem cleanSegment_restPctEncode (hne : s ≠ []) (hdot : restIsDotSegment s = false) :
    CleanSegment (restPctEncode s) := by
  apply cleanSegment_of_decode
  · rwa [decode_restPctEncode]
  · rwa [decode_restPctEncode]

/-! ### Accepted configurations and namespaces -/

/-- The catalog's configuration as the client keeps it: the pieces of the prefix, encoded, and the
separator. -/
structure RestCatalogConfig.Accepted (cc : RestCatalogConfig) (pieces : List CString) : Prop where
  base : cc.base = Paths.trail slash (ascii "v1" :: pieces.map restPctEncode) ++ [slash]
  pieces : ∀ piece ∈ pieces, piece ≠ [] ∧ restIsDotSegment piece = false
  sep : cc.sep = Percent.encode (fun _ => false) cc.rawsep
  rawsep : cc.rawsep ≠ []

theorem flatMap_append_slash (xs : List CString) (u : CString) :
    u ++ slash :: xs.flatMap (fun x => x ++ [slash]) = u ++ Paths.trail slash xs ++ [slash] := by
  induction xs generalizing u with
  | nil => simp [Paths.trail]
  | cons x xs ih =>
    have := ih (u ++ slash :: x)
    rw [Paths.trail_cons, flatMap_cons]
    simpa using this

theorem restAppendPrefix_eq_ok {catalogPrefix out : CString}
    (h : restAppendPrefix catalogPrefix = .ok out) : ∃ pieces : List CString,
      out = pieces.flatMap (fun piece => restPctEncode piece ++ [slash]) ∧
      ∀ piece ∈ pieces, piece ≠ [] ∧ restIsDotSegment piece = false := by
  rw [restAppendPrefix] at h
  split at h
  · cases h
    exact ⟨[], rfl, nofun⟩
  · next p _ =>
    split_ifs at h with hbad
    cases h
    refine ⟨_, rfl, fun piece hpiece => ?_⟩
    rw [any_eq_true, not_exists] at hbad
    have := hbad piece
    simp only [hpiece, true_and, Bool.or_eq_true, beq_iff_eq, not_or, Bool.not_eq_true] at this
    exact this

theorem restEncodeSeparator_eq_ok {advertised sep rawsep : CString}
    (h : restEncodeSeparator advertised = .ok (sep, rawsep)) :
    sep = Percent.encode (fun _ => false) rawsep ∧ rawsep ≠ [] := by
  rw [restEncodeSeparator] at h
  split at h
  · cases h
  · cases h
  · next dec hne _ =>
    cases h
    exact ⟨rfl, hne⟩

theorem restCatalogConfig_eq_ok {catalogPrefix separator : Option CString} {cc : RestCatalogConfig}
    (h : restCatalogConfig catalogPrefix separator = .ok cc) : ∃ pieces, cc.Accepted pieces := by
  rw [restCatalogConfig] at h
  cases hpre : (catalogPrefix.map restAppendPrefix).getD (.ok []) with
  | error e =>
    rw [hpre] at h
    cases h
  | ok out =>
    cases hsep : restEncodeSeparator (separator.getD (ascii "%1F")) with
    | error e =>
      rw [hpre, hsep] at h
      cases h
    | ok p =>
      rw [hpre, hsep] at h
      cases h
      obtain ⟨hsep, hraw⟩ := restEncodeSeparator_eq_ok hsep
      obtain ⟨pieces, hout, hpieces⟩ : ∃ pieces : List CString,
          out = pieces.flatMap (fun piece => restPctEncode piece ++ [slash]) ∧
            ∀ piece ∈ pieces, piece ≠ [] ∧ restIsDotSegment piece = false := by
        cases catalogPrefix with
        | none =>
          cases hpre
          exact ⟨[], rfl, nofun⟩
        | some catalogPrefix => exact restAppendPrefix_eq_ok hpre
      refine ⟨pieces, ?_, hpieces, hsep, hraw⟩
      have hjoin := flatMap_append_slash (pieces.map restPctEncode) (slash :: ascii "v1")
      rw [flatMap_map] at hjoin
      rw [hout, Paths.trail_cons]
      exact hjoin

/-! ### The path of a request -/

/-- What follows the namespace in a path. -/
def pathEnd (table : Option CString) : List CString :=
  ascii "tables" :: (table.map restPctEncode).toList

/-- What an accepted request is made of. -/
structure RequestOf (cc : RestCatalogConfig) (levels : List CString) (table : Option CString)
    (path : CString) : Prop where
  nameable : restUnnameableLevel levels cc = none
  notEmpty : levels ≠ [[]]
  notDot : restIsDotSegment (Split.join cc.rawsep levels) = false
  namedTable : ∀ t ∈ table, t ≠ [] ∧ restIsDotSegment t = false
  path : path = cc.base ++ ascii "namespaces" ++ slash ::
    (Split.join cc.sep (levels.map restPctEncode) ++ Paths.trail slash (pathEnd table))

theorem restAppendLevels_eq_ok {cc : RestCatalogConfig} {levels : List CString} {out : CString}
    (h : restAppendLevels levels cc true = .ok out) :
    restUnnameableLevel levels cc = none ∧ levels ≠ [[]] ∧
      restIsDotSegment (Split.join cc.rawsep levels) = false ∧
      out = Split.join cc.sep (levels.map restPctEncode) := by
  rw [restAppendLevels] at h
  by_cases hempty : levels = [[]]
  · rw [restRefuseOnlyEmptyLevel, if_pos hempty] at h
    cases h
  rw [restRefuseOnlyEmptyLevel, if_neg hempty] at h
  have hsome : ¬ (some cc.rawsep = none ∧ levels.length ≠ 1) := fun h => by cases h.1
  by_cases hdot : restIsDotSegment (Split.join cc.rawsep levels) = true
  · rw [restRefuseDotNamespace, if_neg hsome, Option.getD_some, if_pos hdot] at h
    cases h
  rw [restRefuseDotNamespace, if_neg hsome, Option.getD_some, if_neg hdot] at h
  cases hbad : restUnnameableLevel levels cc with
  | some bad =>
    rw [hbad] at h
    cases h
  | none =>
    rw [hbad] at h
    cases h
    exact ⟨rfl, hempty, by simpa using hdot, rfl⟩

theorem restRequest_eq_ok {cc : RestCatalogConfig} {levels : List CString} {table : Option CString}
    {path : CString} (h : restRequest cc levels table = .ok path) :
    RequestOf cc levels table path := by
  rw [restRequest] at h
  cases hempty : restRefuseOnlyEmptyLevel levels with
  | error e =>
    rw [hempty] at h
    cases h
  | ok _ =>
    cases hdot : restRefuseDotNamespace levels none with
    | error e =>
      rw [hempty, hdot] at h
      cases h
    | ok _ =>
      cases htable : (table.map restRefuseTable).getD (.ok ()) with
      | error e =>
        rw [hempty, hdot, htable] at h
        cases h
      | ok _ =>
        rw [hempty, hdot, htable] at h
        change restPath cc levels table = .ok path at h
        unfold restPath at h
        cases hlevels : restAppendLevels levels cc true with
        | error e =>
          rw [hlevels] at h
          cases h
        | ok segment =>
          rw [hlevels] at h
          obtain ⟨hname, hne, hnot, rfl⟩ := restAppendLevels_eq_ok hlevels
          cases h
          refine ⟨hname, hne, hnot, ?_, ?_⟩
          · intro t ht
            cases ht
            rw [Option.map_some, Option.getD_some, restRefuseTable] at htable
            split at htable
            · cases htable
            · next hnil =>
              split_ifs at htable with hdot
              exact ⟨hnil, by simpa using hdot⟩
          · have hns : ascii "namespaces/" = ascii "namespaces" ++ [slash] := rfl
            have htables : ascii "/tables/" = slash :: ascii "tables" ++ [slash] := rfl
            have hlist : ascii "/tables" = slash :: ascii "tables" := rfl
            cases table with
            | none =>
              simp [hns, hlist, pathEnd, Paths.trail]
            | some t =>
              simp [hns, htables, pathEnd, Paths.trail]

section Requests

variable {cc : RestCatalogConfig} {pieces : List CString} {levels : List CString}
  {table : Option CString} {path : CString}

theorem notMem_segment (hcc : cc.Accepted pieces) {c : Byte} (hc : c ∈ [slash, 63, 35]) :
    c ∉ Split.join cc.sep (levels.map restPctEncode) := by
  intro h
  rw [hcc.sep] at h
  obtain h | ⟨x, hx, h⟩ := mem_join h
  · exact notMem_encodedSeparator hc _ h
  · obtain ⟨l, -, rfl⟩ := mem_map.mp hx
    exact notMem_restPctEncode hc l h

/-- The segments of the path of a request. -/
theorem RequestOf.segments_eq (h : RequestOf cc levels table path) (hcc : cc.Accepted pieces) :
    ∃ rest, path = slash :: rest ∧ segments rest = (ascii "v1" :: pieces.map restPctEncode) ++
        ascii "namespaces" :: Split.join cc.sep (levels.map restPctEncode) :: pathEnd table := by
  have hslash : slash ∈ [slash, 63, 35] := by simp
  have hbase : ∀ n ∈ ascii "v1" :: pieces.map restPctEncode, slash ∉ n := by
    intro n hn
    obtain rfl | hn := mem_cons.mp hn
    · decide
    · obtain ⟨piece, -, rfl⟩ := mem_map.mp hn
      exact notMem_restPctEncode hslash piece
  have hend : segments (Paths.trail slash (pathEnd table)) = [] :: pathEnd table := by
    cases table with
    | none => rfl
    | some t =>
      have htables : ∀ n ∈ [ascii "tables"], slash ∉ n := by decide
      have := segments_trail_append htables (restPctEncode t)
      rw [segments_of_notMem (notMem_restPctEncode hslash t)] at this
      simpa [pathEnd, Paths.trail] using this
  obtain ⟨u, hu⟩ : ∃ u, Paths.trail slash (pathEnd table) = slash :: u := ⟨_, Paths.trail_cons _ _⟩
  have hu' : segments u = pathEnd table := by
    have hnil : segments (slash :: u) = [] :: segments u := segments_append not_mem_nil u
    rw [hu, hnil] at hend
    exact (List.cons.inj hend).2
  have hns : slash ∉ ascii "namespaces" := by decide
  have hall := segments_trail_append hbase (ascii "namespaces" ++ slash ::
    (Split.join cc.sep (levels.map restPctEncode) ++ Paths.trail slash (pathEnd table)))
  rw [segments_append hns, hu, segments_append (notMem_segment hcc hslash), hu'] at hall
  have hpath : path = Paths.trail slash (ascii "v1" :: pieces.map restPctEncode) ++ slash ::
      (ascii "namespaces" ++ slash ::
        (Split.join cc.sep (levels.map restPctEncode) ++ slash :: u)) := by
    rw [h.path, hcc.base, hu]
    simp
  rw [← hpath] at hall
  rw [Paths.trail_cons, cons_append, cons_append] at hpath
  refine ⟨_, hpath, ?_⟩
  have hnil : segments path = [] :: segments _ :=
    (congrArg segments hpath).trans (segments_append not_mem_nil _)
  rw [hnil] at hall
  exact (List.cons.inj hall).2

/-- **Every path with a level in it is clean.** -/
theorem RequestOf.cleanPath_iff (h : RequestOf cc levels table path) (hcc : cc.Accepted pieces) :
    CleanPath path ↔ levels ≠ [] := by
  obtain ⟨rest, hpath, hsegs⟩ := h.segments_eq hcc
  constructor
  · intro hclean hnil
    obtain ⟨rest', hpath', hclean⟩ := hclean.rooted
    rw [hpath] at hpath'
    obtain rfl := (List.cons.inj hpath').2
    refine (hclean [] ?_).1 rfl
    rw [hsegs, hnil]
    simp [Split.join]
  · intro hne
    -- decoded, the segment of the levels is the levels joined
    have hseg : CleanSegment (Split.join cc.sep (levels.map restPctEncode)) := by
      have hdec := decode_join cc.rawsep levels
      rw [← hcc.sep] at hdec
      apply cleanSegment_of_decode
      · rw [hdec]
        intro hnil
        obtain hnil | hnil := join_eq_nil hcc.rawsep hnil
        · exact hne hnil
        · exact h.notEmpty hnil
      · rw [hdec]
        exact h.notDot
    -- no piece of the path holds a mark that would end it
    have hmark : ∀ c ∈ [(63 : Byte), 35], c ∉ path := by
      intro c hc hmem
      have hc' : c ∈ [slash, 63, 35] := mem_cons_of_mem _ hc
      have hslash : c ≠ slash := by
        intro heq
        rw [heq] at hc
        exact absurd hc (by decide)
      have hwords : ∀ c ∈ [(63 : Byte), 35],
          ∀ word ∈ [ascii "v1", ascii "namespaces", ascii "tables"], c ∉ word := by decide
      have hword := hwords c hc
      rw [h.path, hcc.base] at hmem
      simp only [mem_append, mem_cons, not_mem_nil, or_false, hslash, false_or] at hmem
      obtain (hmem | hmem) | hmem | hmem := hmem
      · obtain hmem | ⟨n, hn, hmem⟩ := mem_trail hmem
        · exact hslash hmem
        · obtain rfl | hn := mem_cons.mp hn
          · exact hword _ (by simp) hmem
          · obtain ⟨piece, -, rfl⟩ := mem_map.mp hn
            exact notMem_restPctEncode hc' piece hmem
      · exact hword _ (by simp) hmem
      · exact notMem_segment hcc hc' hmem
      · obtain hmem | ⟨n, hn, hmem⟩ := mem_trail hmem
        · exact hslash hmem
        · obtain rfl | hn := mem_cons.mp hn
          · exact hword _ (by simp) hmem
          · obtain ⟨t, -, rfl⟩ : ∃ t, t ∈ table ∧ restPctEncode t = n := by simpa using hn
            exact notMem_restPctEncode hc' t hmem
    refine ⟨⟨rest, hpath, ?_⟩, hmark 63 (by simp), hmark 35 (by simp)⟩
    intro segment hmem
    rw [hsegs, mem_append, mem_cons, mem_cons, mem_cons] at hmem
    obtain (rfl | hmem) | rfl | rfl | hmem := hmem
    · decide
    · obtain ⟨piece, hpiece, rfl⟩ := mem_map.mp hmem
      obtain ⟨hne, hdot⟩ := hcc.pieces piece hpiece
      exact cleanSegment_restPctEncode hne hdot
    · decide
    · exact hseg
    · rw [pathEnd, mem_cons] at hmem
      obtain rfl | hmem := hmem
      · decide
      · cases table with
        | none => cases hmem
        | some t =>
          obtain rfl : segment = restPctEncode t := by simpa using hmem
          obtain ⟨hne, hdot⟩ := h.namedTable t rfl
          exact cleanSegment_restPctEncode hne hdot

/-- The catalog finds the segment with the levels, decodes it and splits it. -/
theorem RequestOf.catalogLevels_eq (h : RequestOf cc levels table path) (hcc : cc.Accepted pieces) :
    catalogLevels cc path = some (Split.split cc.rawsep (Split.join cc.rawsep levels)) := by
  obtain ⟨rest, hpath, hsegs⟩ := h.segments_eq hcc
  have hbase : ∀ n ∈ ascii "v1" :: pieces.map restPctEncode, slash ∉ n := by
    intro n hn
    obtain rfl | hn := mem_cons.mp hn
    · decide
    · obtain ⟨piece, -, rfl⟩ := mem_map.mp hn
      exact notMem_restPctEncode (by simp) piece
  have hlen : (segments cc.base).length = (ascii "v1" :: pieces.map restPctEncode).length + 2 := by
    rw [hcc.base, segments_trail_append hbase []]
    simp [segments]
  have hnil : segments (slash :: rest) = [] :: segments rest := segments_append not_mem_nil rest
  have hseg : (segments path)[(segments cc.base).length]? =
      some (Split.join cc.sep (levels.map restPctEncode)) := by
    rw [hpath, hnil, hsegs, hlen, getElem?_cons_succ, getElem?_append_right (by omega)]
    simp
  rw [catalogLevels, hseg, Option.map_some, hcc.sep, decode_join]

/-- **Which levels the catalog reads as they were meant.** -/
theorem RequestOf.reads_iff (h : RequestOf cc levels table path) (hcc : cc.Accepted pieces)
    (hne : levels ≠ []) :
    catalogLevels cc path = some levels ↔ Split.Separable cc.rawsep levels := by
  rw [h.catalogLevels_eq hcc, Option.some.injEq, Split.split_join_iff hcc.rawsep hne]

end Requests

/-- Two namespaces are read as they were meant, and are not mistaken for each other. -/
structure ReadApart (cc : RestCatalogConfig) (levels₁ levels₂ : List CString)
    (path₁ path₂ : CString) : Prop where
  clean : CleanPath path₁ ∧ CleanPath path₂
  reads : catalogLevels cc path₁ = some levels₁ ∧ catalogLevels cc path₂ = some levels₂
  apart : path₁ = path₂ → levels₁ = levels₂

/-- **Which namespaces the catalog reads as they were meant.**  Those of at least one level in which
no occurrence of the separator begins before its place: a level may not end in such a way that its
last bytes and the separator behind it hold an earlier occurrence. -/
theorem readApart_iff (catalogPrefix separator : Option CString) (cc : RestCatalogConfig)
    (hcc : restCatalogConfig catalogPrefix separator = .ok cc)
    (levels₁ levels₂ : List CString) (table₁ table₂ : Option CString) (path₁ path₂ : CString)
    (h₁ : restRequest cc levels₁ table₁ = .ok path₁)
    (h₂ : restRequest cc levels₂ table₂ = .ok path₂) :
    ReadApart cc levels₁ levels₂ path₁ path₂ ↔ (levels₁ ≠ [] ∧ Split.Separable cc.rawsep levels₁) ∧
        levels₂ ≠ [] ∧ Split.Separable cc.rawsep levels₂ := by
  obtain ⟨pieces, hcc⟩ := restCatalogConfig_eq_ok hcc
  have h₁ := restRequest_eq_ok h₁
  have h₂ := restRequest_eq_ok h₂
  constructor
  · intro h
    have hne₁ := (h₁.cleanPath_iff hcc).mp h.clean.1
    have hne₂ := (h₂.cleanPath_iff hcc).mp h.clean.2
    exact ⟨⟨hne₁, (h₁.reads_iff hcc hne₁).mp h.reads.1⟩, hne₂, (h₂.reads_iff hcc hne₂).mp h.reads.2⟩
  · intro h
    obtain ⟨⟨hne₁, hsep₁⟩, hne₂, hsep₂⟩ := h
    have hreads₁ := (h₁.reads_iff hcc hne₁).mpr hsep₁
    have hreads₂ := (h₂.reads_iff hcc hne₂).mpr hsep₂
    refine ⟨⟨(h₁.cleanPath_iff hcc).mpr hne₁, (h₂.cleanPath_iff hcc).mpr hne₂⟩,
      ⟨hreads₁, hreads₂⟩, ?_⟩
    intro heq
    rw [heq, hreads₂, Option.some.injEq] at hreads₁
    exact hreads₁.symm

/-- `a.b` and `a` are read apart by a catalog with a dot for its separator. -/
theorem readApart_dot :
    ReadApart ⟨ascii "/v1/main/", ascii "%2E", ascii "."⟩ [ascii "a", ascii "b"] [ascii "a"]
      (ascii "/v1/main/namespaces/a%2Eb/tables") (ascii "/v1/main/namespaces/a/tables/t") :=
  (readApart_iff (some (ascii "main")) (some (ascii "%2E"))
    ⟨ascii "/v1/main/", ascii "%2E", ascii "."⟩ (by decide) [ascii "a", ascii "b"] [ascii "a"] none
    (some (ascii "t")) _ _ (by decide) (by decide)).mpr
    ⟨⟨by decide, by decide⟩, by decide, by decide⟩

/-- With the separator `;;` the namespaces `;` and `b`, and the empty one and `;b`, are accepted and
have one path. -/
theorem not_readApart : ¬ ∀ (catalogPrefix separator : Option CString) (cc : RestCatalogConfig),
      restCatalogConfig catalogPrefix separator = .ok cc →
      ∀ (levels₁ levels₂ : List CString) (table₁ table₂ : Option CString) (path₁ path₂ : CString),
        levels₁ ≠ [] → levels₂ ≠ [] → restRequest cc levels₁ table₁ = .ok path₁ →
        restRequest cc levels₂ table₂ = .ok path₂ → ReadApart cc levels₁ levels₂ path₁ path₂ := by
  intro h
  have hread := h none (some (ascii ";;")) ⟨ascii "/v1/", ascii "%3B%3B", ascii ";;"⟩ (by decide)
    [ascii ";", ascii "b"] [[], ascii ";b"] none none
    (ascii "/v1/namespaces/%3B%3B%3Bb/tables") (ascii "/v1/namespaces/%3B%3B%3Bb/tables")
    (by decide) (by decide) (by decide) (by decide)
  exact absurd (hread.apart rfl) (by decide)

end PgColumnar.Iceberg
