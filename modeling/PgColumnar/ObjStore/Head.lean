import Mathlib.Data.List.DropRight
import PgColumnar.ObjStore.Conn

/-!
# The head of a response

`os_read_head` waits for the blank line that ends the head and scans the head line by line.  Numbers
are read by `strtoll`, which takes what it finds; of several lengths the last one counts.

## Main definitions

* `parseHead`, `osReadHead` — one head.
* `framing` — how the body is delimited; `PlainHead` is a head that says it in one way.

## Main results

* `framing_of_plainHead` — the scan finds it.
-/

namespace PgColumnar.ObjStore

open Bytes Iceberg Staged List

local instance optionNatBEq : LawfulBEq (Option ℕ) := inferInstance

/-- One parsed response head. -/
structure OsResponse where
  status : ℤ
  /-- -1 when absent. -/
  contentLength : ℤ
  chunked : Bool
  connClose : Bool
  /-- Empty when absent or too long. -/
  etag : CString
  versionId : CString
  /-- The total of `Content-Range`, -1 when absent. -/
  rangeTotal : ℤ
  deriving DecidableEq

def osMaxHead : ℕ := 16384

def osEtagBuf : ℕ := 80

def osVersionBuf : ℕ := 1025

/-- `\r\n\r\n` -/
def blankLine : List Byte := [13, 10, 13, 10]

/-- Cut behind the first blank line. -/
def cutHead : List Byte → Option (List Byte × List Byte)
  | [] => none
  | b :: s =>
    if blankLine.isPrefixOf (b :: s) then some (blankLine, (b :: s).drop 4)
    else (cutHead s).map fun p => (b :: p.1, p.2)

def headLook (_ : Unit) (rb : List Byte) : Except Stop (Look Byte Unit (Option (List Byte))) :=
  match cutHead rb with
  | some (head, rest) => .ok (.done (some head) rest)
  | none => if osMaxHead ≤ rb.length then .error (.raised .oversizedHead) else .ok (.more () rb)

/-- The bytes of the head; `none` when the connection ended before any. -/
def readHeadBytes (c : Conn) : Except Stop (Option (List Byte) × Conn) :=
  c.drive headLook
    (fun _ rest => if rest = [] then .ok none else .error (.raised .closedMidResponse)) ()

/-- The lines that `LF` ends, each with the text from its start on. -/
def headLines : CString → CString → CString → List (CString × CString)
  | _, _, [] => []
  | start, line, b :: s =>
    if b = 10 then (line, start) :: headLines s [] s else headLines start (line ++ [b]) s

/-- `os_line_has_token` -/
def osLineHasToken (line token : CString) : Bool :=
  match line with
  | [] => token = []
  | b :: s => startsCase token (b :: s) || osLineHasToken s token

def blank (b : Byte) : Bool := b == 32 || b == 9

/-- A value that does not fit its buffer with the terminator is kept as none. -/
def keptValue (buf : ℕ) (s : CString) : CString :=
  let value := (s.dropWhile blank).takeWhile (· ≠ 13)
  if value.length ≤ buf - 1 then value else []

/-- The number behind the first slash of the line. -/
def rangeTotal (line start : CString) : Option ℤ :=
  if 47 ∈ line then
    let behind := start.drop (line.idxOf 47 + 1)
    if (behind.head?.bind (digit 10)).isSome then some (strtoll 10 behind) else none
  else none

def hasChunked (line start : CString) : Bool :=
  match strstr start (ascii "chunked") with
  | some i => decide (i < line.length)
  | none => false

/-- One line of the head: the response so far, and whether `keep-alive` was seen. -/
def osHeadField (st : OsResponse × Bool) (l : CString × CString) : OsResponse × Bool :=
  if startsCase (ascii "Content-Length:") l.2 then
    ({ st.1 with contentLength := strtoll 10 (l.2.drop 15) }, st.2)
  else if startsCase (ascii "Transfer-Encoding:") l.2 && hasChunked l.1 l.2 then
    ({ st.1 with chunked := true }, st.2)
  else if startsCase (ascii "Connection:") l.2 then
    ({ st.1 with
      connClose := st.1.connClose || osLineHasToken (l.1.drop 11) (ascii "close") },
      st.2 || osLineHasToken (l.1.drop 11) (ascii "keep-alive"))
  else if startsCase (ascii "ETag:") l.2 then
    ({ st.1 with etag := keptValue osEtagBuf (l.1.drop 5) }, st.2)
  else if startsCase (ascii "x-amz-version-id:") l.2 then
    ({ st.1 with versionId := keptValue osVersionBuf (l.1.drop 17) }, st.2)
  else if startsCase (ascii "Content-Range:") l.2 then
    ({ st.1 with rangeTotal := (rangeTotal l.1 l.2).getD st.1.rangeTotal }, st.2)
  else st

/-- The final `LF` of a head is overwritten by a terminator. -/
def headText (head : List Byte) : CString := head.dropLast

def headFields (head : List Byte) : List (CString × CString) :=
    headLines (headText head) [] (headText head)

def statusOf (head : List Byte) : ℤ := atoi ((headText head).drop 9)

def parseHead (head : List Byte) : Except Stop OsResponse :=
  if head.length < 12 ∨ ¬ (ascii "HTTP/1.").isPrefixOf head then .error (.raised .notHttp)
  else
    let r := (headFields head).foldl osHeadField
      (⟨statusOf head, -1, false, false, [], [], -1⟩, false)
    -- an HTTP/1.0 connection persists only when the reply says keep-alive
    .ok { r.1 with connClose := r.1.connClose || (head.getD 7 0 == 48 && !r.2) }

/-- `os_read_head`; `none` is its `false`. -/
def osReadHead (c : Conn) : Except Stop (Option OsResponse × Conn) := do
  let (head, c) ← readHeadBytes c
  match head with
  | none => .ok (none, c)
  | some head =>
    let resp ← parseHead head
    .ok (some resp, c)

/-! ### What a head says about the body -/

/-- A head ends at its first blank line. -/
def IsHead (head : List Byte) : Prop :=
  blankLine <:+ head ∧ ¬ blankLine <:+: head.dropLast

/-- A value without the `CR` of its line and the blanks around it. -/
def trim (s : CString) : CString :=
  ((if s.getLast? = some 13 then s.dropLast else s).dropWhile blank).rdropWhile blank

/-- The values of the fields of a name. -/
def fieldValues (name : CString) (head : List Byte) : List CString :=
  (headFields head).filterMap fun l =>
    if startsCase name l.1 then some (trim (l.1.drop name.length)) else none

def lengthValues (head : List Byte) : List CString := fieldValues (ascii "Content-Length:") head

def codingValues (head : List Byte) : List CString := fieldValues (ascii "Transfer-Encoding:") head

/-- The last transfer coding of a list separated by commas. -/
def finalCoding (value : CString) : CString :=
  ((value.rtakeWhile (· ≠ 44)).dropWhile blank).map lower

/-- The body is chunked if that is the last coding of the last field. -/
def chunkedLast (head : List Byte) : Bool :=
  match (codingValues head).getLast? with
  | some value => finalCoding value = ascii "chunked"
  | none => false

inductive Framing
  | chunked
  | length (n : ℕ)
  | untilClose
  deriving DecidableEq

/-- How the body is delimited; `none` when the lengths are malformed or differ.  A coding comes
before a length, and another coding than `chunked` at the end leaves only the end of the
connection. -/
def framing (head : List Byte) : Option Framing :=
  let lengths := (lengthValues head).map (numeral 10)
  if none ∈ lengths ∨ ¬ lengths.Pairwise (· = ·) then none
  else if chunkedLast head then some .chunked
  else if codingValues head ≠ [] then some .untilClose
  else
    match lengths with
    | some n :: _ => some (.length n)
    | _ => some .untilClose

/-- The framing that the parsed head holds. -/
def OsResponse.framing (resp : OsResponse) : Framing :=
  if resp.chunked then .chunked
  else if resp.contentLength < 0 then .untilClose
  else .length resp.contentLength.toNat

/-- The head has one length in digits at most, which an `int64` holds, and is chunked if the
lower-case word stands in a coding and only then. -/
structure PlainHead (head : List Byte) : Prop where
  lengths : ∀ v ∈ lengthValues head, (numeral 10 v).any (· ≤ llongMax) = true
  agree : ∀ v ∈ lengthValues head, ∀ w ∈ lengthValues head, numeral 10 v = numeral 10 w
  coding : ((headFields head).any fun l =>
    startsCase (ascii "Transfer-Encoding:") l.1 && hasChunked l.1 l.2) = chunkedLast head
  noLength : codingValues head ≠ [] → chunkedLast head = false → lengthValues head = []

/-! ### The scan of a head -/

variable {name : CString}

/-- A name is found in the line or not at all. -/
theorem startsCase_line {line rest : CString} (hname : 10 ∉ name.map lower) :
    startsCase name (line ++ 10 :: rest) = startsCase name line := by
  unfold startsCase caseEq
  rw [decide_eq_decide]
  by_cases hle : name.length ≤ line.length
  · rw [take_append_of_le_length hle]
  · have hlt : line.length < name.length := by omega
    constructor
    · intro h
      refine absurd ?_ hname
      rw [h, take_append, map_append, mem_append]
      refine .inr (mem_map.mpr ⟨10, ?_, rfl⟩)
      rw [show name.length - line.length = (name.length - line.length - 1) + 1 by omega,
        take_succ_cons]
      exact mem_cons_self
    · intro h
      have := congrArg List.length h
      rw [length_map, length_map, length_take] at this
      omega

/-- Where the lines of a text stand in it. -/
theorem headLines_spec {start line s : CString} (hs : start = line ++ s) (hline : 10 ∉ line) :
    ∀ l ∈ headLines start line s, 10 ∉ l.1 ∧ ∃ rest, l.2 = l.1 ++ 10 :: rest := by
  induction s generalizing start line with
  | nil => exact nofun
  | cons b s ih =>
    intro l hl
    rw [headLines] at hl
    split_ifs at hl with hb
    · obtain rfl | hl := mem_cons.mp hl
      · exact ⟨hline, s, by rw [hs, hb]⟩
      · exact ih rfl not_mem_nil l hl
    · refine ih (by rw [hs, append_assoc, singleton_append]) ?_ l hl
      rw [mem_append, mem_singleton, not_or]
      exact ⟨hline, Ne.symm hb⟩

variable {head : List Byte} {l : CString × CString}

theorem headFields_spec (hl : l ∈ headFields head) :
    10 ∉ l.1 ∧ ∃ rest, l.2 = l.1 ++ 10 :: rest := headLines_spec rfl not_mem_nil l hl

theorem startsCase_field {head : CString} (hl : l ∈ headFields head)
    (hname : 10 ∉ name.map lower) : startsCase name l.2 = startsCase name l.1 := by
  obtain ⟨_, rest, hrest⟩ := headFields_spec hl
  rw [hrest, startsCase_line hname]

/-- A value stands between blanks, and the `CR` of its line may follow. -/
theorem trim_spec (s : CString) : ∃ ws tail, s = ws ++ (trim s ++ tail) ∧
    (∀ b ∈ ws, blank b = true) ∧
    ∀ b ∈ tail, blank b = true ∨ b = 13 := by
  obtain ⟨body, cr, hs, hbody, hcr⟩ : ∃ body cr, s = body ++ cr ∧
      (if s.getLast? = some 13 then s.dropLast else s) = body ∧ ∀ b ∈ cr, b = 13 := by
    by_cases h : s.getLast? = some 13
    · refine ⟨s.dropLast, [13], (dropLast_append_getLast? _ h).symm, if_pos h, ?_⟩
      intro b hb
      exact mem_singleton.mp hb
    · exact ⟨s, [], (append_nil s).symm, if_neg h, nofun⟩
  refine ⟨body.takeWhile blank, (body.dropWhile blank).rtakeWhile blank ++ cr, ?_,
    fun b hb => mem_takeWhile_imp hb, ?_⟩
  · have hr : (body.dropWhile blank).rdropWhile blank ++ (body.dropWhile blank).rtakeWhile blank
        = body.dropWhile blank := rdropWhile_append_rtakeWhile ..
    rw [trim, hbody, ← append_assoc (List.rdropWhile _ _), hr, ← append_assoc,
      takeWhile_append_dropWhile, hs]
  · intro b hb
    obtain hb | hb := mem_append.mp hb
    · exact .inl (mem_rtakeWhile_imp hb)
    · exact .inr (hcr b hb)

theorem osHeadField_contentLength (st : OsResponse × Bool) (l : CString × CString) :
    (osHeadField st l).1.contentLength =
      if startsCase (ascii "Content-Length:") l.2 then strtoll 10 (l.2.drop 15)
      else st.1.contentLength := by
  unfold osHeadField
  split_ifs <;> rfl

/-- The two names begin with different letters. -/
theorem not_transferEncoding {s : CString} (h : startsCase (ascii "Content-Length:") s = true) :
    startsCase (ascii "Transfer-Encoding:") s = false := by
  cases s with
  | nil => cases h
  | cons b s =>
    simp only [startsCase, caseEq, decide_eq_true_eq, decide_eq_false_iff_not] at h ⊢
    intro h'
    have h₁ : lower 67 = lower b := (List.cons.inj h).1
    have h₂ : lower 84 = lower b := (List.cons.inj h').1
    exact absurd (h₁.trans h₂.symm) (by decide)

theorem osHeadField_chunked (st : OsResponse × Bool) (l : CString × CString) :
    (osHeadField st l).1.chunked =
      (st.1.chunked || startsCase (ascii "Transfer-Encoding:") l.2 && hasChunked l.1 l.2) := by
  unfold osHeadField
  split_ifs with h₁ h₂
  · rw [not_transferEncoding h₁, Bool.false_and, Bool.or_false]
  · rw [h₂, Bool.or_true]
  all_goals
    rw [Bool.not_eq_true] at h₂
    rw [h₂, Bool.or_false]

variable {ls : List (CString × CString)}

/-- The lengths agree: the one that is kept is theirs. -/
theorem foldl_contentLength {n : ℤ} (st : OsResponse × Bool)
    (h : ∀ l ∈ ls, startsCase (ascii "Content-Length:") l.2 = true → strtoll 10 (l.2.drop 15) = n) :
    (ls.foldl osHeadField st).1.contentLength =
      if ls.any (fun l => startsCase (ascii "Content-Length:") l.2) then n
      else st.1.contentLength := by
  induction ls generalizing st with
  | nil => rfl
  | cons l ls ih =>
    rw [foldl_cons, ih _ fun l' hl' => h l' (mem_cons_of_mem l hl'),
      osHeadField_contentLength, any_cons]
    cases hl : startsCase (ascii "Content-Length:") l.2 with
    | false => rfl
    | true =>
      rw [if_pos rfl, h l mem_cons_self hl, ite_self]
      rfl

theorem foldl_chunked (st : OsResponse × Bool) :
    (ls.foldl osHeadField st).1.chunked = (st.1.chunked ||
      ls.any fun l => startsCase (ascii "Transfer-Encoding:") l.2 && hasChunked l.1 l.2) := by
  induction ls generalizing st with
  | nil => rw [any_nil, Bool.or_false]; rfl
  | cons l ls ih => rw [foldl_cons, ih, osHeadField_chunked, any_cons, Bool.or_assoc]

theorem mem_fieldValues {v : CString} :
    v ∈ fieldValues name head ↔
      ∃ l ∈ headFields head, startsCase name l.1 = true ∧ trim (l.1.drop name.length) = v := by
  unfold fieldValues
  rw [mem_filterMap]
  refine exists_congr fun l => and_congr_right fun _ => ?_
  split_ifs with h
  · simp [h]
  · simp [h]

/-- A plain length is read as its number. -/
theorem strtoll_field (hl : l ∈ headFields head)
    (hname : startsCase (ascii "Content-Length:") l.1 = true) {n : ℕ} (hn : n ≤ llongMax)
    (hv : numeral 10 (trim (l.1.drop 15)) = some n) : strtoll 10 (l.2.drop 15) = n := by
  obtain ⟨_, rest, hrest⟩ := headFields_spec hl
  obtain ⟨ws, tail, hs, hws, htail⟩ := trim_spec (l.1.drop 15)
  have hlen : 15 ≤ l.1.length := by
    simp only [startsCase, caseEq, decide_eq_true_eq] at hname
    have h := congrArg List.length hname
    rw [length_map, length_map, length_take] at h
    have h15 : (ascii "Content-Length:").length = 15 := rfl
    omega
  have hspace : ∀ b, blank b = true → isSpace b = true := by
    intro b hb
    simp only [blank, Bool.or_eq_true, beq_iff_eq] at hb
    obtain rfl | rfl := hb <;> rfl
  rw [hrest, drop_append_of_le_length hlen, hs, append_assoc, append_assoc,
    strtoll_numeral hv (fun b hb => hspace b (hws b hb)), Nat.min_eq_left hn]
  -- what follows the digits is a blank or the end of the line
  intro b t hb
  have hmem : b = 32 ∨ b = 9 ∨ b = 13 ∨ b = 10 := by
    cases tail with
    | nil => exact .inr (.inr (.inr (List.cons.inj hb).1.symm))
    | cons x tail =>
      have hx := htail x mem_cons_self
      rw [(List.cons.inj hb).1] at hx
      simp only [blank, Bool.or_eq_true, beq_iff_eq] at hx
      tauto
  obtain rfl | rfl | rfl | rfl := hmem <;> decide

variable {resp : OsResponse}

theorem parseHead_eq (h : parseHead head = .ok resp) :
    resp.contentLength = ((headFields head).foldl osHeadField
        (⟨statusOf head, -1, false, false, [], [], -1⟩, false)).1.contentLength ∧
      resp.chunked = ((headFields head).foldl osHeadField
        (⟨statusOf head, -1, false, false, [], [], -1⟩, false)).1.chunked := by
  unfold parseHead at h
  split_ifs at h
  cases h
  exact ⟨rfl, rfl⟩

theorem status_of_parseHead (h : parseHead head = .ok resp) :
    resp.status = statusOf head := by
  have hfold : ∀ (ls : List (CString × CString)) (st : OsResponse × Bool),
      (ls.foldl osHeadField st).1.status = st.1.status := by
    intro ls
    induction ls with
    | nil => exact fun _ => rfl
    | cons l ls ih =>
      intro st
      rw [foldl_cons, ih]
      unfold osHeadField
      split_ifs <;> rfl
  unfold parseHead at h
  split_ifs at h
  cases h
  exact hfold _ _

theorem chunked_eq (hplain : PlainHead head)
    (h : parseHead head = .ok resp) : resp.chunked = chunkedLast head := by
  rw [(parseHead_eq h).2, foldl_chunked, Bool.false_or, ← hplain.coding, Bool.eq_iff_iff,
    any_eq_true, any_eq_true]
  refine exists_congr fun l => and_congr_right fun hl => ?_
  rw [startsCase_field hl (by decide)]

theorem PlainHead.exists_length (hplain : PlainHead head) {v : CString}
    (hv : v ∈ lengthValues head) : ∃ n, numeral 10 v = some n ∧ n ≤ llongMax := by
  obtain ⟨n, hn, hle⟩ := Option.any_eq_true _ _ |>.mp (hplain.lengths v hv)
  exact ⟨n, hn, of_decide_eq_true hle⟩

/-- Without a length none is kept; with one it is kept. -/
theorem contentLength_eq (hplain : PlainHead head) (h : parseHead head = .ok resp) :
    (lengthValues head = [] ∧ resp.contentLength = -1) ∨
      ∃ v vs n, lengthValues head = v :: vs ∧ numeral 10 v = some n ∧ resp.contentLength = n := by
  rw [(parseHead_eq h).1]
  cases hv : lengthValues head with
  | nil =>
    left
    refine ⟨rfl, ?_⟩
    have hnone : ∀ l ∈ headFields head, startsCase (ascii "Content-Length:") l.2 ≠ true := by
      intro l hl hname
      rw [startsCase_field hl (by decide)] at hname
      have hmem : trim (l.1.drop 15) ∈ lengthValues head := mem_fieldValues.mpr ⟨l, hl, hname, rfl⟩
      rw [hv] at hmem
      cases hmem
    rw [foldl_contentLength (n := 0) _ fun l hl hname => absurd hname (hnone l hl), if_neg]
    rw [Bool.not_eq_true, any_eq_false]
    exact hnone
  | cons v vs =>
    right
    have hmem : v ∈ lengthValues head := hv ▸ mem_cons_self
    obtain ⟨n, hnum, hn⟩ := hplain.exists_length hmem
    refine ⟨v, vs, n, rfl, hnum, ?_⟩
    obtain ⟨l₀, hl₀, hname₀, -⟩ := mem_fieldValues.mp hmem
    have hall : ∀ l ∈ headFields head, startsCase (ascii "Content-Length:") l.2 = true →
        strtoll 10 (l.2.drop 15) = n := by
      intro l hl hname
      rw [startsCase_field hl (by decide)] at hname
      have hl' : trim (l.1.drop 15) ∈ lengthValues head := mem_fieldValues.mpr ⟨l, hl, hname, rfl⟩
      exact strtoll_field hl hname hn ((hplain.agree _ hl' v hmem).trans hnum)
    rw [foldl_contentLength _ hall, if_pos]
    rw [any_eq_true]
    exact ⟨l₀, hl₀, (startsCase_field hl₀ (by decide)).trans hname₀⟩

/-- **In a plain head the scan finds the framing.** -/
theorem framing_of_plainHead (hplain : PlainHead head)
    (h : parseHead head = .ok resp) : framing head = some resp.framing := by
  have hwell : ¬ (none ∈ (lengthValues head).map (numeral 10) ∨
      ¬ ((lengthValues head).map (numeral 10)).Pairwise (· = ·)) := by
    rw [not_or, not_not]
    constructor
    · intro hmem
      obtain ⟨v, hv, hnone⟩ := mem_map.mp hmem
      obtain ⟨n, hn, -⟩ := hplain.exists_length hv
      rw [hnone] at hn
      cases hn
    · rw [pairwise_map]
      exact pairwise_of_forall_mem_list fun v hv w hw => hplain.agree v hv w hw
  have hchunked := chunked_eq hplain h
  unfold framing OsResponse.framing
  rw [if_neg hwell, hchunked]
  cases hlast : chunkedLast head with
  | true => rfl
  | false =>
    simp only [Bool.false_eq_true, if_false]
    obtain ⟨hv, hlen⟩ | ⟨v, vs, n, hv, hnum, hlen⟩ := contentLength_eq hplain h
    · rw [hlen, if_pos (show (-1 : ℤ) < 0 by decide), hv]
      split_ifs <;> rfl
    · have hcoding : codingValues head = [] := by
        by_contra hne
        rw [hplain.noLength hne hlast] at hv
        cases hv
      rw [if_neg (not_not.mpr hcoding), hv, map_cons, hnum, hlen, if_neg (by omega)]
      rfl

/-! ### What is taken as the head -/

variable {x : List Byte}

theorem blankLine_isPrefixOf_append {y : List Byte} (hx : blankLine.length ≤ x.length) :
    blankLine.isPrefixOf (x ++ y) = blankLine.isPrefixOf x := by
  rw [Bool.eq_iff_iff, isPrefixOf_iff_prefix, isPrefixOf_iff_prefix]
  exact ⟨fun h => prefix_of_prefix_length_le h (prefix_append x y) hx,
    fun h => h.trans (prefix_append x y)⟩

variable {s rest : List Byte}

theorem cutHead_cons {b : Byte} (h : cutHead (b :: s) = some (head, rest)) :
    blankLine.isPrefixOf (b :: s) = true ∧ head = blankLine ∧ rest = (b :: s).drop 4 ∨
      blankLine.isPrefixOf (b :: s) = false ∧ ∃ t, head = b :: t ∧ cutHead s = some (t, rest) := by
  rw [cutHead] at h
  split_ifs at h with hp
  · cases h
    exact .inl ⟨hp, rfl, rfl⟩
  · obtain ⟨p, hp', heq⟩ := Option.map_eq_some_iff.mp h
    cases heq
    exact .inr ⟨Bool.not_eq_true _ ▸ hp, p.1, rfl, hp'⟩

theorem cutHead_spec (h : cutHead s = some (head, rest)) :
    s = head ++ rest ∧ IsHead head := by
  induction s generalizing head with
  | nil => cases h
  | cons b s ih =>
    obtain ⟨hp, rfl, rfl⟩ | ⟨hp, t, rfl, ht⟩ := cutHead_cons h
    · obtain ⟨y, hy⟩ := isPrefixOf_iff_prefix.mp hp
      refine ⟨?_, suffix_refl _, by decide⟩
      rw [← hy]
      rfl
    · obtain ⟨rfl, hsuf, hnot⟩ := ih ht
      refine ⟨rfl, hsuf.trans (suffix_cons b t), ?_⟩
      have hne : t ≠ [] := by
        intro hnil
        rw [hnil] at hsuf
        exact absurd hsuf (by decide)
      rw [dropLast_cons_of_ne_nil hne, infix_cons_iff, not_or]
      refine ⟨fun hpre => ?_, hnot⟩
      -- a blank line at the start would have been found there
      have hpre' : blankLine <+: b :: (t ++ rest) :=
        (hpre.trans (cons_prefix_cons.mpr ⟨rfl, dropLast_prefix t⟩)).trans
          (prefix_append (b :: t) rest)
      rw [ isPrefixOf_iff_prefix.mpr hpre'] at hp
      cases hp

theorem length_of_cutHead (h : cutHead s = some (head, rest)) :
    blankLine.length ≤ s.length := by
  obtain ⟨rfl, hsuf, -⟩ := cutHead_spec h
  rw [length_append]
  exact hsuf.length_le.trans (Nat.le_add_right _ _)

theorem cutHead_append (h : cutHead x = some (head, rest)) (y : List Byte) :
    cutHead (x ++ y) = some (head, rest ++ y) := by
  induction x generalizing head with
  | nil => cases h
  | cons b x ih =>
    have hlen := length_of_cutHead h
    obtain ⟨hp, rfl, rfl⟩ | ⟨hp, t, rfl, ht⟩ := cutHead_cons h
    · rw [cons_append, cutHead, ← cons_append, blankLine_isPrefixOf_append hlen, if_pos hp,
        drop_append_of_le_length (i := 4) hlen]
    · rw [cons_append, cutHead, ← cons_append, blankLine_isPrefixOf_append hlen, hp, ih ht]
      rfl

theorem resumable_headLook : Resumable headLook where
  done := by
    intro s x b rest h y
    unfold headLook at h ⊢
    cases hc : cutHead x with
    | none =>
      rw [hc] at h
      split_ifs at h
      cases h
    | some p =>
      rw [hc] at h
      cases h
      rw [cutHead_append hc]
  more := by
    intro s x s' rest h y
    unfold headLook at h
    cases hc : cutHead x with
    | none =>
      rw [hc] at h
      split_ifs at h
      cases h
      rfl
    | some p =>
      rw [hc] at h
      cases h

theorem cutHead_of_whole {eof : Unit → List Byte → Except Stop (Option (List Byte))}
    (heof : ∀ x head, eof () x ≠ .ok (some head))
    (h : whole headLook eof () x = .ok (some head, rest)) : cutHead x = some (head, rest) := by
  unfold whole headLook at h
  cases hc : cutHead x with
  | some p =>
    rw [hc] at h
    cases h
    rfl
  | none =>
    rw [hc] at h
    split_ifs at h
    dsimp only at h
    cases he : eof () x with
    | error e =>
      rw [he] at h
      cases h
    | ok b =>
      rw [he] at h
      cases h
      exact absurd he (heof x head)

theorem parseHead_ne_outside (head : List Byte) : parseHead head ≠ .error .outside := by
  unfold parseHead
  split_ifs
  · exact fun h => nomatch h
  · exact nofun

/-- **What is read as a head is one**, the next bytes of the stream up to the first blank line. -/
theorem ensures_osReadHead (c : Conn) : Ensures (osReadHead c) fun r =>
    ∀ resp, r.1 = some resp → ∃ head, parseHead head = .ok resp ∧
      cutHead c.stream = some (head, r.2.stream) := by
  unfold osReadHead readHeadBytes
  have hlook : ∀ s x, headLook s x ≠ .error .outside := by
    intro s x h
    unfold headLook at h
    split at h
    · cases h
    · split_ifs at h
      cases h
  have heof : ∀ (s : Unit) (x : List Byte),
      (if x = [] then .ok none else .error (.raised .closedMidResponse) :
        Except Stop (Option (List Byte))) ≠ .error .outside := by
    intro s x h
    split_ifs at h
    cases h
  refine Ensures.bind (ensures_drive resumable_headLook hlook heof c ()) fun r hr => ?_
  obtain ⟨head, c'⟩ := r
  obtain ⟨-, hwhole⟩ := hr
  cases head with
  | none => exact Ensures.ok nofun
  | some head =>
    have hcut : cutHead c.stream = some (head, c'.stream) := by
      refine cutHead_of_whole ?_ hwhole
      intro x head' h
      split_ifs at h
      cases h
    have hparse : Ensures (parseHead head) fun resp => parseHead head = .ok resp :=
      ⟨parseHead_ne_outside head, fun _ h => h⟩
    refine hparse.bind fun resp hresp => Ensures.ok ?_
    intro resp' heq
    cases heq
    exact ⟨head, hresp, hcut⟩

end PgColumnar.ObjStore
