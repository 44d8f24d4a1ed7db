import PgColumnar.Lib.Bytes

/-!
# The records of a text file

How `COPY FROM` cuts a file in text format into records (`CopyReadLine`).  A backslash takes
the byte after it with it, so an escaped newline is data.  The first line end settles how
lines end; another one is an error from then on.  A line that is just `\.` ends the data, and
what follows it is not read.

## Main definitions

* `readLine`, `copyFrom` — the line grammar of `COPY`.
* `LineStart` — where a line begins.

## Main results

* `copyFrom_append` — a file may be cut at a line start.
-/

namespace PgColumnar.Copy

open Bytes List Option Nat

def lf : Byte := 10

def cr : Byte := 13

def backslash : Byte := 92

def dot : Byte := 46

/-- `EolType`. -/
inductive Eol where
  | unknown
  | nl
  | cr
  | crnl
  deriving DecidableEq

/-- A line as `CopyReadLine` leaves it; `eof` when there is no line end. -/
structure Line where
  text : List Byte
  rest : List Byte
  eol : Eol
  eof : Bool
  deriving DecidableEq

/-- The line end after `\.` has to be that of the lines before. -/
def markerEnds (eol : Eol) (l : List Byte) : Bool :=
  match eol with
  | .unknown => l.head? = some lf ∨ l.head? = some cr
  | .nl => l.head? = some lf
  | .cr => l.head? = some cr
  | .crnl => l.head? = some cr ∧ l.tail.head? = some lf

/-- `CopyReadLineText`; `data` when the line has bytes already. -/
def readLine (eol : Eol) (data : Bool) : List Byte → Option Line
  | [] => some ⟨[], [], eol, true⟩
  | c :: l =>
    if c = cr then
      if (eol = .unknown ∨ eol = .crnl) ∧ l.head? = some lf then some ⟨[], l.tail, .crnl, false⟩
      else if eol = .unknown ∨ eol = .cr then some ⟨[], l, .cr, false⟩
      else none
    else if c = lf then
      if eol = .unknown ∨ eol = .nl then some ⟨[], l, .nl, false⟩ else none
    else if c = backslash then
      match l with
      | [] => some ⟨[c], [], eol, true⟩
      | d :: l' =>
        if d = dot then
          if data = false ∧ markerEnds eol l' = true then some ⟨[], [], eol, true⟩ else none
        else (readLine eol true l').map fun line => { line with text := c :: d :: line.text }
    else (readLine eol true l).map fun line => { line with text := c :: line.text }

/-- There is no further record. -/
def Line.done (line : Line) : Bool := line.eof && line.text.isEmpty

/-- At most this many lines. -/
def readLines : ℕ → Eol → List Byte → Option (List (List Byte))
  | 0, _, _ => none
  | n + 1, eol, l =>
    (readLine eol false l).bind fun line =>
      if line.done then some [] else (readLines n line.eol line.rest).map (line.text :: ·)

/-- The records read from these bytes, if they are accepted. -/
def copyFrom (eol : Eol) (l : List Byte) : Option (List (List Byte)) :=
  readLines (l.length + 1) eol l

/-- The byte at this offset is not escaped, and no end-of-data marker begins before it. -/
def reaches : List Byte → ℕ → Bool
  | _, 0 => true
  | [], _ + 1 => true
  | c :: l, n + 1 =>
    if c = backslash then
      match l, n with
      | _, 0 => false
      | [], _ => true
      | d :: l', n + 1 => d ≠ dot && reaches l' n
    else reaches l n

/-! ## One line -/

variable {eol : Eol} {data : Bool} {l used : List Byte} {line : Line}

theorem readLine_lf (heol : eol = .unknown ∨ eol = .nl) :
    readLine eol data (lf :: l) = some ⟨[], l, .nl, false⟩ := by
  rw [readLine.eq_def]
  exact if_pos heol

@[simp] theorem reaches_escaped (l : List Byte) : reaches (backslash :: l) 1 = false := by
  cases l <;> simp [reaches]

/-- A line with its line end, `used` being its bytes. -/
structure Ended (eol : Eol) (data : Bool) (l : List Byte) (line : Line) (used : List Byte) :
    Prop where
  split : l = used ++ line.rest
  pos : 0 < used.length
  /-- The bytes after it do not matter, but for the one that may belong to its end. -/
  alone : ∀ r, r <+: line.rest → readLine eol data (used ++ r) = some { line with rest := r }
  /-- Nothing in it reaches beyond its end. -/
  reaches : ∀ n, reaches l (used.length + n) = reaches line.rest n
  /-- A newline in it that is not escaped is its end. -/
  newline : ∀ p < used.length, l[p]? = some lf → Copy.reaches l p = true → p + 1 = used.length
  last : l[used.length - 1]? = some lf → Copy.reaches l (used.length - 1) = true

theorem readLine_crlf (heol : eol = .unknown ∨ eol = .crnl) :
    readLine eol data (cr :: lf :: l) = some ⟨[], l, .crnl, false⟩ := by
  have hend : (eol = .unknown ∨ eol = .crnl) ∧ (lf :: l).head? = some lf := ⟨heol, rfl⟩
  rw [readLine.eq_def]
  exact if_pos hend

theorem readLine_cr (hnot : ¬((eol = .unknown ∨ eol = .crnl) ∧ l.head? = some lf))
    (heol : eol = .unknown ∨ eol = .cr) :
    readLine eol data (cr :: l) = some ⟨[], l, .cr, false⟩ := by
  rw [readLine.eq_def]
  exact (if_neg hnot).trans (if_pos heol)

variable {c : Byte}

theorem readLine_byte (hcr : c ≠ cr) (hlf : c ≠ lf) (hc : c ≠ backslash) :
    readLine eol data (c :: l) =
      (readLine eol true l).map fun line => { line with text := c :: line.text } := by
  rw [readLine.eq_def]
  simp only [hcr, hlf, hc, if_false]

theorem readLine_escape {d : Byte} (hd : d ≠ dot) : readLine eol data (backslash :: d :: l) =
      (readLine eol true l).map fun line => { line with text := backslash :: d :: line.text } := by
  have hcr : backslash ≠ cr := by decide
  have hlf : backslash ≠ lf := by decide
  rw [readLine.eq_def]
  simp only [hcr, hlf, hd, if_false, if_true]

@[simp] theorem reaches_zero (l : List Byte) : reaches l 0 = true := by
  cases l <;> rfl

theorem reaches_byte (hc : c ≠ backslash) (l : List Byte) (n : ℕ) :
    reaches (c :: l) (n + 1) = reaches l n := by
  rw [reaches.eq_def]
  exact if_neg hc

theorem reaches_escape {d : Byte} (hd : d ≠ dot) (l : List Byte) (n : ℕ) :
    reaches (backslash :: d :: l) (n + 2) = reaches l n := by
  simp [reaches, hd]

@[simp] theorem reaches_marker (l : List Byte) (n : ℕ) :
    reaches (backslash :: dot :: l) (n + 1) = false := by
  cases n <;> simp [reaches]

/-- The line end itself. -/
theorem Ended.of_newline (line : Line) (hc : c ≠ backslash)
    (halone : ∀ r, r <+: line.rest → readLine eol data (c :: r) = some { line with rest := r }) :
    Ended eol data (c :: line.rest) line [c] where
  split := rfl
  pos := one_pos
  alone := halone
  reaches n := by
    rw [length_singleton, add_comm, reaches_byte hc]
  newline p hp _ _ := by
    rw [length_singleton] at hp ⊢
    omega
  last _ := reaches_zero _

theorem Ended.of_crlf (heol : eol = .unknown ∨ eol = .crnl) :
    Ended eol data (cr :: lf :: l) ⟨[], l, .crnl, false⟩ [cr, lf] where
  split := rfl
  pos := two_pos
  alone r _ := readLine_crlf heol
  reaches n := by
    have hlen : [cr, lf].length + n = n + 1 + 1 := add_comm 2 n
    rw [hlen, reaches_byte (by decide), reaches_byte (by decide)]
  newline p hp hget _ := by
    match p with
    | 0 => exact absurd (Option.some.inj hget) (by decide)
    | 1 => rfl
    | p + 2 => exact absurd hp (by simp)
  last _ := by
    show Copy.reaches (cr :: lf :: l) (0 + 1) = true
    rw [reaches_byte (by decide), reaches_zero]

/-- A byte before the rest of the line. -/
theorem Ended.byte (hcr : c ≠ cr) (hlf : c ≠ lf) (hc : c ≠ backslash)
    (h : Ended eol true l line used) :
    Ended eol data (c :: l) { line with text := c :: line.text } (c :: used) where
  split := congrArg (c :: ·) h.split
  pos := succ_pos _
  alone r hr := by
    have halone := h.alone r hr
    rw [cons_append, readLine_byte hcr hlf hc, halone]
    rfl
  reaches n := by
    rw [length_cons, add_right_comm, reaches_byte hc]
    exact h.reaches n
  newline p hp hget hreach := by
    cases p with
    | zero => exact absurd (Option.some.inj hget) hlf
    | succ p =>
      rw [reaches_byte hc] at hreach
      have hend := h.newline p (lt_of_succ_lt_succ hp) hget hreach
      rw [length_cons, hend]
  last hget := by
    have hpos := h.pos
    obtain ⟨n, hn⟩ := exists_eq_succ_of_ne_zero (ne_of_gt hpos)
    have hlast := h.last
    rw [hn] at hlast
    rw [length_cons, hn, Nat.succ_eq_add_one, Nat.add_sub_cancel] at hget ⊢
    rw [reaches_byte hc]
    exact hlast hget

/-- An escape before the rest of the line. -/
theorem Ended.escape {d : Byte} (hd : d ≠ dot) (h : Ended eol true l line used) :
    Ended eol data (backslash :: d :: l) { line with text := backslash :: d :: line.text }
      (backslash :: d :: used) where
  split := congrArg (fun l => backslash :: d :: l) h.split
  pos := succ_pos _
  alone r hr := by
    have halone := h.alone r hr
    rw [cons_append, cons_append, readLine_escape hd, halone]
    rfl
  reaches n := by
    have hlen : (backslash :: d :: used).length + n = used.length + n + 2 := by
      simp only [length_cons]
      omega
    rw [hlen, reaches_escape hd]
    exact h.reaches n
  newline p hp hget hreach := by
    match p with
    | 0 => exact absurd (Option.some.inj hget) (by decide)
    | 1 =>
      rw [reaches_escaped] at hreach
      cases hreach
    | p + 2 =>
      rw [reaches_escape hd] at hreach
      simp only [length_cons] at hp ⊢
      have hend := h.newline p (by omega) hget hreach
      omega
  last hget := by
    have hpos := h.pos
    obtain ⟨n, hn⟩ := exists_eq_succ_of_ne_zero (ne_of_gt hpos)
    have hlast := h.last
    rw [hn] at hlast
    have hlen : (backslash :: d :: used).length - 1 = n + 2 := by
      simp only [length_cons]
      omega
    rw [hlen] at hget ⊢
    rw [reaches_escape hd]
    exact hlast hget

/-- A line that ends has a line end. -/
theorem readLine_ended (h : readLine eol data l = some line) (heof : line.eof = false) :
    ∃ used, Ended eol data l line used := by
  fun_induction readLine eol data l generalizing line with
  | case1 => cases Option.some.inj h ▸ heof
  | case2 data l hend =>
    cases h
    cases l with
    | nil => cases hend.2
    | cons c rest =>
      cases Option.some.inj hend.2
      exact ⟨_, Ended.of_crlf hend.1⟩
  | case3 data l hnot hend =>
    cases h
    refine ⟨_, Ended.of_newline ⟨[], l, .cr, false⟩ (by decide) ?_⟩
    intro r hr
    refine readLine_cr (fun hand => hnot ⟨hand.1, ?_⟩) hend
    -- what is left of the rest begins like it
    obtain ⟨t, ht⟩ := hr
    have ht : r ++ t = l := ht
    cases r with
    | nil => cases hand.2
    | cons d r =>
      rw [← ht]
      exact hand.2
  | case4 | case6 | case9 => cases h
  | case5 data l hend =>
    cases h
    refine ⟨_, Ended.of_newline ⟨[], l, .nl, false⟩ (by decide) ?_⟩
    intro r _
    exact readLine_lf hend
  | case7 | case8 =>
    cases h
    cases heof
  | case10 data d l hd _ _ ih =>
    obtain ⟨line, hline, rfl⟩ := map_eq_some_iff.mp h
    obtain ⟨used, hused⟩ := ih hline heof
    exact ⟨_, hused.escape hd⟩
  | case11 data c l hcr hlf hc ih =>
    obtain ⟨line, hline, rfl⟩ := map_eq_some_iff.mp h
    obtain ⟨used, hused⟩ := ih hline heof
    exact ⟨_, hused.byte hcr hlf hc⟩

/-- A line without a line end has no newline that is not escaped. -/
theorem readLine_eof (h : readLine eol data l = some line) (heof : line.eof = true) {p : ℕ}
    (hp : l[p]? = some lf) : reaches l p = false := by
  fun_induction readLine eol data l generalizing line p with
  | case1 => cases hp
  | case2 | case3 | case5 =>
    cases h
    cases heof
  | case4 | case6 | case9 => cases h
  | case7 =>
    match p with
    | 0 => exact absurd (Option.some.inj hp) (by decide)
    | p + 1 => cases hp
  | case8 =>
    match p with
    | 0 => exact absurd (Option.some.inj hp) (by decide)
    | p + 1 => exact reaches_marker _ _
  | case10 data d l hd _ _ ih =>
    obtain ⟨line, hline, rfl⟩ := map_eq_some_iff.mp h
    match p with
    | 0 => exact absurd (Option.some.inj hp) (by decide)
    | 1 => exact reaches_escaped _
    | p + 2 =>
      rw [reaches_escape hd]
      exact ih hline heof hp
  | case11 data c l hcr hlf hc ih =>
    obtain ⟨line, hline, rfl⟩ := map_eq_some_iff.mp h
    match p with
    | 0 => exact absurd (Option.some.inj hp) hlf
    | p + 1 =>
      rw [reaches_byte hc]
      exact ih hline heof hp

theorem markerEnds_unknown (h : markerEnds eol l = true) : markerEnds .unknown l = true := by
  cases eol <;> simp_all [markerEnds]

/-- A line is read the same when it is not known how lines end; a lone carriage return has
to be followed by something else than a newline. -/
theorem readLine_unknown (h : readLine eol data l = some line)
    (hcr : line.eol = .cr → line.rest.head? ≠ some lf) :
    ∃ e, readLine .unknown data l = some { line with eol := e } ∧
      (line.eof = false → e = line.eol) := by
  fun_induction readLine eol data l generalizing line with
  | case1 | case7 =>
    cases h
    exact ⟨.unknown, rfl, nofun⟩
  | case2 data l hend =>
    cases h
    cases l with
    | nil => cases hend.2
    | cons c rest =>
      cases Option.some.inj hend.2
      exact ⟨.crnl, readLine_crlf (.inl rfl), fun _ => rfl⟩
  | case3 =>
    cases h
    exact ⟨.cr, readLine_cr (fun hand => hcr rfl hand.2) (.inl rfl), fun _ => rfl⟩
  | case4 | case6 | case9 => cases h
  | case5 =>
    cases h
    exact ⟨.nl, readLine_lf (.inl rfl), fun _ => rfl⟩
  | case8 data l hmarker =>
    cases h
    refine ⟨.unknown, ?_, nofun⟩
    have hends : data = false ∧ markerEnds .unknown l = true :=
      ⟨hmarker.1, markerEnds_unknown hmarker.2⟩
    rw [readLine.eq_def]
    exact if_pos hends
  | case10 data d l hd _ _ ih =>
    obtain ⟨line, hline, rfl⟩ := map_eq_some_iff.mp h
    obtain ⟨e, he, heol⟩ := ih hline hcr
    refine ⟨e, ?_, heol⟩
    rw [readLine_escape hd, he]
    rfl
  | case11 data c l hcr' hlf hc ih =>
    obtain ⟨line, hline, rfl⟩ := map_eq_some_iff.mp h
    obtain ⟨e, he, heol⟩ := ih hline hcr
    refine ⟨e, ?_, heol⟩
    rw [readLine_byte hcr' hlf hc, he]
    rfl

/-! ## Whole files -/

/-- A line of the file begins at this offset. -/
inductive LineStart : Eol → List Byte → ℕ → Prop where
  | first {eol : Eol} {l : List Byte} : LineStart eol l 0
  | next {eol : Eol} {l : List Byte} {line : Line} {n : ℕ}
    (hline : readLine eol false l = some line)
      (heof : line.eof = false) (h : LineStart line.eol line.rest n) :
      LineStart eol l (l.length - line.rest.length + n)

theorem Ended.rest_lt (h : Ended eol data l line used) : line.rest.length < l.length := by
  have hpos := h.pos
  rw [h.split, length_append]
  omega

theorem readLine_eof_rest (h : readLine eol data l = some line) (heof : line.eof = true) :
    line.rest = [] := by
  fun_induction readLine eol data l generalizing line with
  | case1 | case7 | case8 =>
    cases h
    rfl
  | case2 | case3 | case5 =>
    cases h
    cases heof
  | case4 | case6 | case9 => cases h
  | case10 _ _ _ _ _ _ ih | case11 _ _ _ _ _ _ ih =>
    obtain ⟨line', hline, rfl⟩ := map_eq_some_iff.mp h
    have hnil := ih hline heof
    exact hnil

/-- A line that is not the end of the data leaves less to read. -/
theorem readLine_rest (h : readLine eol false l = some line) (hdone : line.done = false) :
    line.rest.length < l.length := by
  cases heof : line.eof with
  | false =>
    obtain ⟨used, hused⟩ := readLine_ended h heof
    exact hused.rest_lt
  | true =>
    cases l with
    | nil =>
      cases h
      cases hdone
    | cons c l =>
      rw [readLine_eof_rest h heof]
      exact succ_pos _

theorem readLines_congr {n m : ℕ} (hn : l.length < n) (hm : l.length < m) :
    readLines n eol l = readLines m eol l := by
  induction n generalizing m eol l with
  | zero => omega
  | succ n ih =>
    cases m with
    | zero => omega
    | succ m =>
      rw [readLines, readLines]
      apply Option.bind_congr
      intro line hline
      cases hdone : line.done with
      | true => rfl
      | false =>
        have hrest := readLine_rest hline hdone
        have hsame : readLines n line.eol line.rest = readLines m line.eol line.rest :=
          ih (by omega) (by omega)
        rw [hsame]

theorem copyFrom_eq (eol : Eol) (l : List Byte) :
    copyFrom eol l = (readLine eol false l).bind fun line =>
      if line.done then some [] else (copyFrom line.eol line.rest).map (line.text :: ·) := by
  rw [copyFrom, readLines]
  apply Option.bind_congr
  intro line hline
  cases hdone : line.done with
  | true => rfl
  | false =>
    have hrest := readLine_rest hline hdone
    rw [copyFrom, readLines_congr hrest (lt_succ_self _)]

@[simp] theorem copyFrom_nil (eol : Eol) : copyFrom eol [] = some [] := rfl

/-- A line with a line end, and the records after it. -/
theorem copyFrom_line (h : readLine eol false l = some line) (heof : line.eof = false) :
    copyFrom eol l = (copyFrom line.eol line.rest).map (line.text :: ·) := by
  have hdone : line.done = false := by rw [Line.done, heof, Bool.false_and]
  rw [copyFrom_eq, h, bind_some, hdone]
  rfl

variable {recs : List (List Byte)}

/-- After a lone carriage return no newline is accepted. -/
theorem copyFrom_cr (h : copyFrom .cr l = some recs) : l.head? ≠ some lf := by
  intro hhead
  cases l with
  | nil => cases hhead
  | cons c l =>
    cases Option.some.inj hhead
    rw [copyFrom_eq, readLine.eq_def] at h
    cases h

/-- How lines end is found out again. -/
theorem copyFrom_unknown (h : copyFrom eol l = some recs) : copyFrom .unknown l = some recs := by
  rw [copyFrom_eq] at h
  obtain ⟨line, hline, hrest⟩ := bind_eq_some_iff.mp h
  have hcr : line.eol = .cr → line.rest.head? ≠ some lf := by
    intro heol
    cases hdone : line.done with
    | true =>
      rw [readLine_eof_rest hline (Bool.and_eq_true _ _ ▸ hdone).1]
      nofun
    | false =>
      rw [hdone, heol] at hrest
      obtain ⟨more, hmore, _⟩ := map_eq_some_iff.mp hrest
      exact copyFrom_cr hmore
  obtain ⟨e, he, heol⟩ := readLine_unknown hline hcr
  rw [copyFrom_eq, he, bind_some, ← hrest]
  cases heof : line.eof with
  | false =>
    rw [heol heof, ← heof]
  | true =>
    -- nothing is left to be read
    have hnil := readLine_eof_rest hline heof
    simp only [Line.done, heof, hnil, copyFrom_nil]

/-! ## Cutting a file -/

/-- A file is cut at a line start into two that hold its records. -/
theorem copyFrom_append {o : ℕ} (hstart : LineStart eol l o) (h : copyFrom eol l = some recs) :
    ∃ r₁ r₂, copyFrom eol (l.take o) = some r₁ ∧ copyFrom .unknown (l.drop o) = some r₂ ∧
      recs = r₁ ++ r₂ := by
  induction hstart generalizing recs with
  | first => exact ⟨[], recs, copyFrom_nil _, copyFrom_unknown h, rfl⟩
  | @next eol l line n hline heof _ ih =>
    obtain ⟨used, hused⟩ := readLine_ended hline heof
    rw [copyFrom_line hline heof] at h
    obtain ⟨more, hmore, rfl⟩ := map_eq_some_iff.mp h
    obtain ⟨r₁, r₂, h₁, h₂, rfl⟩ := ih hmore
    have hlen : l.length - line.rest.length + n = used.length + n := by
      rw [hused.split, length_append]
      omega
    have htake : l.take (l.length - line.rest.length + n) = used ++ line.rest.take n := by
      rw [hlen]
      conv_lhs => rw [hused.split]
      exact take_length_add_append _
    have hdrop : l.drop (l.length - line.rest.length + n) = line.rest.drop n := by
      rw [hlen]
      conv_lhs => rw [hused.split]
      exact drop_length_add_append _
    refine ⟨line.text :: r₁, r₂, ?_, by rw [hdrop, h₂], rfl⟩
    have halone := hused.alone _ ( take_prefix n line.rest)
    rw [htake, copyFrom_line halone heof, h₁]
    rfl

theorem Ended.length (h : Ended eol data l line used) :
    l.length - line.rest.length = used.length := by
  conv_lhs => rw [h.split, length_append]
  omega

/-- The lines begun after a line start are those of the bytes from there on. -/
theorem LineStart.drop {o p : ℕ} (ho : LineStart eol l o) (hp : LineStart eol l p) (hop : o ≤ p)
    (h : copyFrom eol l = some recs) :
    LineStart .unknown (l.drop o) (p - o) := by
  induction ho generalizing p recs with
  | first =>
    cases hp with
    | first => exact .first
    | @next _ _ line n hline heof hrest =>
      rw [copyFrom_line hline heof] at h
      obtain ⟨more, hmore, rfl⟩ := map_eq_some_iff.mp h
      obtain ⟨e, he, heol⟩ := readLine_unknown hline fun hcr => copyFrom_cr (hcr ▸ hmore)
      rw [heol heof] at he
      exact .next he heof hrest
  | @next eol l line n hline heof _ ih =>
    obtain ⟨used, hused⟩ := readLine_ended hline heof
    have hpos := hused.pos
    rw [hused.length] at hop ⊢
    cases hp with
    | first => omega
    | @next _ _ line' m hline' heof' hrest' =>
      rw [hline] at hline'
      cases hline'
      rw [hused.length] at hop ⊢
      rw [copyFrom_line hline heof] at h
      obtain ⟨more, hmore, rfl⟩ := map_eq_some_iff.mp h
      have hdrop : l.drop (used.length + n) = line.rest.drop n := by
        conv_lhs => rw [hused.split]
        exact drop_length_add_append _
      rw [hdrop, Nat.add_sub_add_left]
      exact ih hrest' (by omega) hmore

/-- A newline that is not escaped and stands before any end-of-data marker ends a line. -/
theorem lineStart_of_reaches (h : copyFrom eol l = some recs) {p : ℕ}
    (hp : l[p]? = some lf) (hreach : reaches l p = true) : LineStart eol l (p + 1) := by
  induction hn : l.length using Nat.strong_induction_on generalizing eol l recs p with
  | _ n ih =>
    rw [copyFrom_eq] at h
    obtain ⟨line, hline, hrest⟩ := bind_eq_some_iff.mp h
    cases heof : line.eof with
    | true =>
      rw [readLine_eof hline heof hp] at hreach
      cases hreach
    | false =>
      obtain ⟨used, hused⟩ := readLine_ended hline heof
      rcases lt_or_ge p used.length with hlt | hge
      · have hend := hused.newline p hlt hp hreach
        have hnext : LineStart eol l (l.length - line.rest.length + 0) := .next hline heof .first
        rw [hused.length] at hnext
        rw [hend]
        exact hnext
      · -- in a later line
        obtain ⟨m, rfl⟩ := Nat.exists_eq_add_of_le hge
        have hdone : line.done = false := by rw [Line.done, heof, Bool.false_and]
        rw [hdone] at hrest
        obtain ⟨more, hmore, rfl⟩ := map_eq_some_iff.mp hrest
        rw [hused.reaches] at hreach
        rw [hused.split, getElem?_append_right hge, Nat.add_sub_cancel_left] at hp
        have hlater := ih _ (hn ▸ hused.rest_lt) hmore hp hreach rfl
        have hnext := LineStart.next hline heof hlater
        rw [hused.length] at hnext
        exact hnext

/-- Conversely a newline before a line start is not escaped. -/
theorem reaches_of_lineStart {o : ℕ} (h : LineStart eol l (o + 1)) (ho : l[o]? = some lf) :
    reaches l o = true := by
  generalize hp : o + 1 = p at h
  induction h generalizing o with
  | first => omega
  | @next eol l line n hline heof _ ih =>
    obtain ⟨used, hused⟩ := readLine_ended hline heof
    have hpos := hused.pos
    rw [hused.length] at hp
    cases n with
    | zero =>
      have hlast : o = used.length - 1 := by omega
      rw [hlast] at ho ⊢
      exact hused.last ho
    | succ n =>
      have ho' : o = used.length + n := by omega
      rw [ho', hused.split, getElem?_append_right (by omega), Nat.add_sub_cancel_left] at ho
      rw [ho', hused.reaches]
      exact ih ho rfl

end PgColumnar.Copy
