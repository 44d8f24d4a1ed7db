import PgColumnar.ObjStore.Head

/-!
# The body of a response

`os_read_body` reads a body into a destination of known length, or discards it; `os_slurp_body`
collects it up to a cap.  Both take the size of a chunk from `strtoll`, so that a line without
digits ends the body, and `os_read_body` adds that size to the bytes it has before it compares them
with the length.

## Main definitions

* `osReadBody`, `osSlurpBody` — a body into a buffer, or collected up to a cap.

## Main results

* `ensures_osReadBody`, `ensures_osSlurpBody` — one body each, and nothing behind it.
-/

namespace PgColumnar.ObjStore

open Bytes Iceberg Staged List Nat Int

def wrap64 (x : ℤ) : ℤ := x.bmod (2 ^ 64)

def wrap32 (x : ℤ) : ℤ := x.bmod (2 ^ 32)

/-- `line[0] == '\0'` -/
def emptyLine (line : CString) : Bool := line.head?.getD 0 == 0

/-- The trailers, until an empty line.  Each round takes a byte, so that nothing is left to read
when the count is used up. -/
def osReadTrailers : ℕ → Conn → Except Stop Conn
  | 0, c => do
    let _ ← osReadLine c
    .error (.raised .closedMidBody)
  | k + 1, c => do
    let (line, c) ← osReadLine c
    if emptyLine line then .ok c else osReadTrailers k c

/-- The loop over the chunks.  `accept` checks the size of a chunk against the bytes read so far,
and gives the room for it and the new total. -/
def readChunks (accept : ℤ → ℤ → Except Stop (Option ℕ × ℤ)) :
    ℕ → Conn → ℤ → List Byte → Except Stop ((List Byte × ℤ) × Conn)
  | 0, c, _, _ => do
    let _ ← osReadLine c
    .error (.raised .closedMidBody)
  | k + 1, c, total, got => do
    let (line, c) ← osReadLine c
    if strtoll 16 line < 0 then .error (.raised .badChunkSize)
    else if strtoll 16 line = 0 then do
      let c ← osReadTrailers k c
      .ok ((got, total), c)
    else do
      let (room, total) ← accept total (strtoll 16 line)
      let (bs, c) ← osReadExact c room (strtoll 16 line).toNat
      let (_, c) ← osReadLine c
      readChunks accept k c total (got ++ bs)

/-- The check of `os_read_body`: `total + sz > want` in `int64`. -/
def bodyAccept (dst : Option ℕ) (total sz : ℤ) : Except Stop (Option ℕ × ℤ) :=
  match dst with
  | none => .ok (none, wrap64 (total + sz))
  | some want =>
    if (want : ℤ) < wrap64 (total + sz) then .error (.raised .moreThanRequested)
    else .ok (some (want - total.toNat), wrap64 (total + sz))

/-- `os_read_body`; `dst` is the length `want` of the destination, absent for `NULL`. -/
def osReadBody (c : Conn) (resp : OsResponse) (dst : Option ℕ) : Except Stop (List Byte × Conn) :=
  if resp.chunked then do
    let ((got, total), c) ← readChunks (bodyAccept dst) c.stream.length c 0 []
    match dst with
    | none => .ok ([], c)
    | some want =>
      if total ≠ want then .error (.raised (.sentOfRequested total want)) else .ok (got, c)
  else if resp.contentLength < 0 then .error (.raised .bodyWithNoLength)
  else
    match dst with
    | none => do
      let (_, c) ← osReadExact c none resp.contentLength.toNat
      .ok ([], c)
    | some want =>
      if resp.contentLength ≠ want then .error (.raised (.sentOfRequested resp.contentLength want))
      else osReadExact c (some want) resp.contentLength.toNat

/-- `enlargeStringInfo(&s, (int) n)` refuses a negative number and one past the greatest
allocation. -/
def enlargeStringInfo (len n : ℤ) : Except Stop ℤ :=
  if wrap32 n < 0 ∨ 2 ^ 30 - 1 ≤ wrap32 n + len then .error (.raised .badEnlargement)
  else .ok (wrap32 n)

/-- The check of `os_slurp_body`, and the growth of its buffer. -/
def slurpAccept (cap : ℕ) (len sz : ℤ) : Except Stop (Option ℕ × ℤ) :=
  if (cap : ℤ) < wrap64 (len + sz) then .error (.raised (.exceeded cap))
  else do
    let needed ← enlargeStringInfo len sz
    .ok (some needed.toNat, len + needed)

/-- The loop of `os_slurp_body` over a body that ends with the connection. -/
def closeLook (cap : ℕ) (s rb : List Byte) : Except Stop (Look Byte (List Byte) (List Byte)) :=
  if cap < s.length + rb.length then .error (.raised (.exceeded cap)) else .ok (.more (s ++ rb) [])

/-- `os_slurp_body` -/
def osSlurpBody (c : Conn) (resp : OsResponse) (cap : ℕ) : Except Stop (List Byte × Conn) :=
  if resp.chunked then do
    let ((s, _), c) ← readChunks (slurpAccept cap) c.stream.length c 0 []
    .ok (s, c)
  else if resp.contentLength < 0 then c.drive (closeLook cap) (fun s _ => .ok s) []
  else if (cap : ℤ) < resp.contentLength then .error (.raised (.exceeded cap))
  else do
    let needed ← enlargeStringInfo 0 resp.contentLength
    osReadExact c (some needed.toNat) resp.contentLength.toNat

/-! ### Well-formed bodies -/

def crlf : List Byte := [13, 10]

/-- Chunks, each with its size in hexadecimal digits, and a last one of size 0 with trailers. -/
inductive Chunked : List Byte → List Byte → Prop
  | last {zeros : CString} {trailers : List CString} : numeral 16 zeros = some 0 →
      (∀ t ∈ trailers, t ≠ [] ∧ 10 ∉ t ∧ 13 ∉ t ∧ 0 ∉ t) →
      Chunked (zeros ++ (crlf ++ (trailers.flatMap (· ++ crlf) ++ crlf))) []
  | chunk {size : CString} {data wire payload : List Byte} : numeral 16 size = some data.length →
      data ≠ [] → Chunked wire payload →
      Chunked (size ++ (crlf ++ (data ++ (crlf ++ wire)))) (data ++ payload)

/-- The bytes of a body with what they carry; `rest` follows on the connection. -/
def Body (f : Framing) (wire payload rest : List Byte) : Prop :=
  match f with
  | .chunked => Chunked wire payload
  | .length n => wire = payload ∧ payload.length = n
  | .untilClose => wire = payload ∧ rest = []

/-! ### Plain lines of the chunk framing -/

/-- Cut at the first `LF`. -/
def cutLine : List Byte → Option (List Byte × List Byte)
  | [] => none
  | b :: s => if b = 10 then some ([], s) else (cutLine s).map fun p => (b :: p.1, p.2)

/-- The line before its `CR`, which is the only one. -/
def plainLine (raw : List Byte) : Option CString :=
  if raw.getLast? = some 13 ∧ 13 ∉ raw.dropLast then some raw.dropLast else none

/-- `os_read_line` raises. -/
def tooLong (raw : List Byte) : Bool := decide (lineCap ≤ (raw.filter (· ≠ 13)).length)

/-- The trailers that are read end in `\r\n` and hold no byte 0. -/
def plainTrailers : ℕ → List Byte → Bool
  | 0, _ => true
  | k + 1, s =>
    match cutLine s with
    | none => true
    | some (raw, rest) =>
      tooLong raw ||
        match plainLine raw with
        | none => false
        | some line => decide (0 ∉ line) && (decide (line = []) || plainTrailers k rest)

/-- Each line with a size, as far as they are read, is refused or is hexadecimal digits, and the
line behind the chunk is empty.  With `wraps` the size does not take the total past the greatest
`int64`. Reading ends where the stream does, and where a chunk exceeds the limit. -/
def plainChunks (wraps : Bool) (limit : ℕ) : ℕ → ℕ → List Byte → Bool
  | 0, _, _ => true
  | k + 1, total, s =>
    match cutLine s with
    | none => true
    | some (raw, rest) =>
      tooLong raw || decide (strtoll 16 (raw.filter (· ≠ 13)) < 0) ||
        match (plainLine raw).bind (numeral 16) with
        | none => false
        | some 0 => plainTrailers k rest
        | some n =>
          (!wraps || decide (total + min n llongMax ≤ llongMax)) &&
            (decide (limit < total + n) || decide (rest.length < n) ||
              match cutLine (rest.drop n) with
              | none => true
              | some (raw, rest) =>
                tooLong raw || raw == [13] && plainChunks wraps limit k (total + n) rest)

variable {raw : List Byte}

theorem cutLine_append (h : 10 ∉ raw) (rest : List Byte) :
    cutLine (raw ++ 10 :: rest) = some (raw, rest) := by
  induction raw with
  | nil => rfl
  | cons b raw ih =>
    rw [mem_cons, not_or] at h
    rw [cons_append, cutLine, if_neg (Ne.symm h.1), ih h.2]
    rfl

variable {line : List Byte}

theorem plainLine_eq_some (h : plainLine raw = some line) : raw = line ++ [13] ∧ 13 ∉ line := by
  unfold plainLine at h
  split_ifs at h with hc
  cases h
  exact ⟨(dropLast_append_getLast? _ hc.1).symm, hc.2⟩

theorem filter_of_plainLine (h : plainLine raw = some line) : raw.filter (· ≠ 13) = line := by
  obtain ⟨rfl, hline⟩ := plainLine_eq_some h
  rw [filter_append, filter_eq_self.mpr]
  · simp
  · intro b hb
    simp only [ne_eq, decide_eq_true_eq]
    exact fun hb' => hline (hb' ▸ hb)

/-- One line of the chunk framing, cut from the stream. -/
theorem ensures_cutLine (c : Conn) : Ensures (osReadLine c) fun r => r.2.resets = c.resets ∧
    ∃ raw, c.stream = raw ++ 10 :: r.2.stream ∧ 10 ∉ raw ∧
      cutLine c.stream = some (raw, r.2.stream) ∧
      tooLong raw = false ∧ r.1 = raw.filter (· ≠ 13) := by
  refine (ensures_osReadLine c).mono fun r hr => ?_
  obtain ⟨hresets, hlen, raw, hstream, hraw, hline⟩ := hr
  refine ⟨hresets, raw, hstream, hraw, ?_, ?_, hline⟩
  · rw [hstream, cutLine_append hraw]
  · rw [tooLong, decide_eq_false_iff_not, ← hline]
    omega

theorem emptyLine_iff {line : CString} (h : 0 ∉ line) : emptyLine line = true ↔ line = [] := by
  cases line with
  | nil => exact ⟨fun _ => rfl, fun _ => rfl⟩
  | cons b line =>
    rw [mem_cons, not_or] at h
    simp only [emptyLine, head?_cons, Option.getD_some, beq_iff_eq, reduceCtorEq, iff_false]
    exact fun hb => h.1 hb.symm

/-! ### What the readers ensure -/

theorem ensures_osReadTrailers {k : ℕ} {c : Conn} (h : plainTrailers k c.stream = true) :
    Ensures (osReadTrailers k c) fun c' => c'.resets = c.resets ∧ ∃ trailers : List CString,
      (∀ t ∈ trailers, t ≠ [] ∧ 10 ∉ t ∧ 13 ∉ t ∧ 0 ∉ t) ∧
        c.stream = trailers.flatMap (· ++ crlf) ++ (crlf ++ c'.stream) := by
  induction k generalizing c with
  | zero => exact (ensures_cutLine c).bind fun _ _ => Ensures.raised
  | succ k ih =>
    refine (ensures_cutLine c).bind fun r hr => ?_
    obtain ⟨line, c₁⟩ := r
    obtain ⟨hresets, raw, hstream, hraw, hcut, hshort, hline⟩ := hr
    rw [plainTrailers, hcut] at h
    dsimp only at h hline ⊢
    rw [hshort, Bool.false_or] at h
    cases hp : plainLine raw with
    | none =>
      rw [hp] at h
      cases h
    | some line' =>
      rw [hp] at h
      rw [filter_of_plainLine hp] at hline
      subst hline
      obtain ⟨rfl, hcr⟩ := plainLine_eq_some hp
      simp only [Bool.and_eq_true, Bool.or_eq_true, decide_eq_true_eq] at h
      have hlf : 10 ∉ line := fun hm => hraw (mem_append_left _ hm)
      by_cases hnil : line = []
      · rw [if_pos ((emptyLine_iff h.1).mpr hnil)]
        refine Ensures.ok ⟨hresets, [], nofun, ?_⟩
        rw [hstream, hnil]
        rfl
      · rw [if_neg fun he => hnil ((emptyLine_iff h.1).mp he)]
        refine (ih (h.2.resolve_left hnil)).mono fun c' hc' => ?_
        obtain ⟨hresets', trailers, htrailers, hrest⟩ := hc'
        refine ⟨hresets'.trans hresets, line :: trailers, ?_, ?_⟩
        · intro t ht
          obtain rfl | ht := mem_cons.mp ht
          · exact ⟨hnil, hlf, hcr, h.1⟩
          · exact htrailers t ht
        · rw [hstream, hrest, flatMap_cons]
          simp [crlf]

/-- A check of chunk sizes against a limit: a size past it is refused, another one is given room. -/
def Accepts (accept : ℤ → ℤ → Except Stop (Option ℕ × ℤ)) (wraps : Bool) (limit : ℕ) : Prop :=
  ∀ total n : ℕ, total ≤ limit → 0 < n → (wraps = true → total + min n llongMax ≤ llongMax) →
    if limit < total + n then ∃ e, accept total (min n llongMax : ℕ) = .error (.raised e)
    else n ≤ llongMax ∧ ∃ room, accept total (min n llongMax : ℕ) = .ok (room, (total + n : ℕ)) ∧
      fits room n = true

/-- **The loop over the chunks reads a well-formed body** if its lines are plain. -/
theorem ensures_readChunks {accept : ℤ → ℤ → Except Stop (Option ℕ × ℤ)} {wraps : Bool} {limit : ℕ}
    (ha : Accepts accept wraps limit) {k : ℕ} {c : Conn} {total : ℕ} {got : List Byte}
    (htotal : total ≤ limit) (h : plainChunks wraps limit k total c.stream = true) :
    Ensures (readChunks accept k c total got) fun r => r.2.resets = c.resets ∧ ∃ wire payload,
      Chunked wire payload ∧ c.stream = wire ++ r.2.stream ∧ total + payload.length ≤ limit ∧
        r.1 = (got ++ payload, ((total + payload.length : ℕ) : ℤ)) := by
  induction k generalizing c total got with
  | zero => exact (ensures_cutLine c).bind fun _ _ => Ensures.raised
  | succ k ih =>
    refine (ensures_cutLine c).bind fun r hr => ?_
    obtain ⟨line, c₁⟩ := r
    obtain ⟨hresets, raw, hstream, hraw, hcut, hshort, hline⟩ := hr
    dsimp only at hline hresets hstream hcut ⊢
    rw [plainChunks, hcut] at h
    dsimp only at h
    rw [hshort, Bool.false_or, ← hline] at h
    by_cases hneg : strtoll 16 line < 0
    · rw [if_pos hneg]
      exact Ensures.raised
    rw [if_neg hneg]
    rw [decide_eq_false hneg, Bool.false_or] at h
    cases hsize : (plainLine raw).bind (numeral 16) with
    | none =>
      rw [hsize] at h
      cases h
    | some n =>
      obtain ⟨line', hp, hnum⟩ := Option.bind_eq_some_iff.mp hsize
      rw [filter_of_plainLine hp] at hline
      subst hline
      obtain ⟨rfl, -⟩ := plainLine_eq_some hp
      have hsz : strtoll 16 line = (min n llongMax : ℕ) := by
        have := @strtoll_numeral 16 line [] n [] hnum nofun nofun
        rwa [nil_append, append_nil] at this
      rw [hsize] at h
      rw [hsz]
      cases n with
      | zero =>
        -- the last chunk, and the trailers behind it
        rw [if_pos (by simp)]
        refine (ensures_osReadTrailers h).bind fun c₂ hc₂ => ?_
        obtain ⟨hresets₂, trailers, htrailers, hrest⟩ := hc₂
        refine Ensures.ok ⟨hresets₂.trans hresets, _, [], Chunked.last hnum htrailers, ?_, ?_, ?_⟩
        · rw [hstream, hrest]
          simp [crlf]
        · simpa using htotal
        · simp
      | succ n =>
        have hne : ¬ ((min (n + 1) llongMax : ℕ) : ℤ) = 0 := by
          rw [llongMax]
          omega
        rw [if_neg hne]
        simp only [Bool.and_eq_true, Bool.or_eq_true, Bool.not_eq_true', decide_eq_true_eq] at h
        obtain ⟨hwraps, h⟩ := h
        have hacc := ha total (n + 1) htotal n.succ_pos fun hw => hwraps.resolve_left (by simp [hw])
        split_ifs at hacc with hlimit
        · obtain ⟨e, he⟩ := hacc
          rw [he]
          exact Ensures.raised
        · obtain ⟨hmax, room, hroom, hfits⟩ := hacc
          rw [hroom, toNat_natCast, min_eq_left hmax]
          refine (ensures_osReadExact hfits c₁).bind fun r hr => ?_
          obtain ⟨data, c₂⟩ := r
          obtain ⟨hresets₂, hlen, hstream₂⟩ := hr
          dsimp only at hlen hstream₂ hresets₂ ⊢
          have hdrop : c₁.stream.drop (n + 1) = c₂.stream := by
            rw [hstream₂, ← hlen, drop_left]
          have henough : ¬ c₁.stream.length < n + 1 := by
            rw [hstream₂, length_append]
            omega
          have h := h.resolve_left (not_or.mpr ⟨hlimit, henough⟩)
          rw [hdrop] at h
          refine (ensures_cutLine c₂).bind fun r hr => ?_
          obtain ⟨line₂, c₃⟩ := r
          obtain ⟨hresets₃, raw₂, hstream₃, hraw₂, hcut₂, hshort₂, -⟩ := hr
          dsimp only at hresets₃ hstream₃ hcut₂ ⊢
          rw [hcut₂] at h
          dsimp only at h
          rw [hshort₂, Bool.false_or, Bool.and_eq_true, beq_iff_eq] at h
          refine (ih (by omega) h.2).mono fun r hr => ?_
          obtain ⟨hresets₄, wire, payload, hchunked, hrest, hle, hr⟩ := hr
          refine ⟨hresets₄.trans (hresets₃.trans (hresets₂.trans hresets)), _, _,
            Chunked.chunk (hlen.symm ▸ hnum) ?_ hchunked, ?_, ?_, ?_⟩
          · intro hnil
            rw [hnil] at hlen
            cases hlen
          · rw [hstream, hstream₂, hstream₃, h.1, hrest]
            simp [crlf]
          · rw [length_append, hlen]
            omega
          · rw [hr, append_assoc, length_append, hlen, add_assoc]

theorem wrap64_eq {x : ℤ} (h₀ : 0 ≤ x) (h : x ≤ llongMax) : wrap64 x = x := by
  rw [llongMax] at h
  rw [wrap64, bmod_def]
  split_ifs <;> omega

theorem accepts_bodyAccept {want : ℕ} (h : want < llongMax) :
    Accepts (bodyAccept (some want)) true want := by
  intro total n htotal hn hwraps
  have hsum := hwraps rfl
  have hwrap : wrap64 ((total : ℤ) + (min n llongMax : ℕ)) = (total + min n llongMax : ℕ) := by
    rw [wrap64_eq (by omega) (by omega)]
    rfl
  simp only [bodyAccept, hwrap]
  split_ifs with hlimit hmore hmore
  · exact ⟨_, rfl⟩
  · omega
  · omega
  · have hmax : n ≤ llongMax := by omega
    rw [min_eq_left hmax]
    refine ⟨hmax, _, rfl, ?_⟩
    simp only [fits, toNat_natCast, decide_eq_true_eq]
    omega

/-- A size that would take the length of the buffer past the greatest `int64` is negative as an
`int`, which the growth of the buffer refuses. -/
theorem accepts_slurpAccept {cap : ℕ} (h : cap < 2 ^ 30 - 1) :
    Accepts (slurpAccept cap) false cap := by
  intro total n htotal hn _
  have hmin : min n llongMax ≤ llongMax := min_le_right n llongMax
  simp only [slurpAccept]
  by_cases hsum : total + min n llongMax ≤ llongMax
  · have hwrap : wrap64 ((total : ℤ) + (min n llongMax : ℕ)) = (total + min n llongMax : ℕ) := by
      rw [wrap64_eq (by omega) (by omega)]
      rfl
    rw [hwrap]
    rw [llongMax] at *
    split_ifs with hlimit hmore hmore
    · exact ⟨_, rfl⟩
    · omega
    · omega
    · have hmax : n ≤ 2 ^ 63 - 1 := by omega
      have hint : wrap32 (n : ℤ) = n := by
        rw [wrap32, bmod_def]
        split_ifs <;> omega
      rw [min_eq_left hmax, enlargeStringInfo, hint, if_neg (by omega)]
      refine ⟨hmax, _, rfl, ?_⟩
      simp [fits]
  · rw [llongMax] at *
    have hlimit : cap < total + n := by omega
    have hneg : wrap64 ((total : ℤ) + (min n (2 ^ 63 - 1) : ℕ)) < 0 := by
      rw [wrap64, bmod_def]
      split_ifs <;> omega
    have hint : wrap32 ((min n (2 ^ 63 - 1) : ℕ) : ℤ) < 0 := by
      rw [wrap32, bmod_def]
      split_ifs <;> omega
    rw [if_pos hlimit, if_neg (by omega), enlargeStringInfo, if_pos (.inl hint)]
    exact ⟨_, rfl⟩

/-- **`os_read_body` writes exactly `want` bytes, from exactly one body**, if its lines are
plain. -/
theorem ensures_osReadBody {want : ℕ} (hwant : want < llongMax) (c : Conn) (resp : OsResponse)
    (h : resp.chunked = true → plainChunks true want c.stream.length 0 c.stream = true) :
    Ensures (osReadBody c resp (some want)) fun r => r.1.length = want ∧
      ∃ wire, Body resp.framing wire r.1 r.2.stream ∧ c.stream = wire ++ r.2.stream := by
  unfold osReadBody
  by_cases hc : resp.chunked = true
  · rw [if_pos hc]
    refine (ensures_readChunks (accepts_bodyAccept hwant) want.zero_le (h hc)).bind fun r hr => ?_
    obtain ⟨⟨got, total⟩, c'⟩ := r
    obtain ⟨-, wire, payload, hchunked, hstream, -, hr⟩ := hr
    cases hr
    dsimp only at hstream ⊢
    split_ifs with hne
    · exact Ensures.raised
    · refine Ensures.ok ⟨?_, wire, ?_, hstream⟩
      · simp only [nil_append]
        omega
      · rw [OsResponse.framing, if_pos hc]
        exact hchunked
  · rw [if_neg hc]
    by_cases hneg : resp.contentLength < 0
    · rw [if_pos hneg]
      exact Ensures.raised
    rw [if_neg hneg]
    by_cases hlen : resp.contentLength = want
    · dsimp only
      rw [if_neg (not_not.mpr hlen), hlen, toNat_natCast]
      refine (ensures_osReadExact (by simp [fits]) c).mono fun r hr => ?_
      obtain ⟨-, hlen', hstream⟩ := hr
      refine ⟨hlen', r.1, ?_, hstream⟩
      rw [OsResponse.framing, if_neg hc, if_neg hneg, hlen, toNat_natCast]
      exact ⟨rfl, hlen'⟩
    · dsimp only
      rw [if_pos hlen]
      exact Ensures.raised

theorem resumable_closeLook (cap : ℕ) : Resumable (closeLook cap) where
  done := by
    intro s x b rest h y
    unfold closeLook at h
    split_ifs at h
    cases h
  more := by
    intro s x s' rest h y
    unfold closeLook at h ⊢
    split_ifs at h with hcap
    cases h
    simp only [nil_append, length_append, append_assoc, add_assoc]

/-- A body that ends with the connection is all that is still to come. -/
theorem ensures_closeLook (cap : ℕ) (c : Conn) :
    Ensures (c.drive (closeLook cap) (fun s _ => .ok s) []) fun r =>
      r.1.length ≤ cap ∧ c.stream = r.1 ∧ r.2.stream = [] := by
  have hlook : ∀ s x, closeLook cap s x ≠ .error .outside := by
    intro s x h
    unfold closeLook at h
    split_ifs at h
    cases h
  have heof : ∀ s _ : List Byte, (.ok s : Except Stop (List Byte)) ≠ .error .outside :=
    fun _ _ h => nomatch h
  refine (ensures_drive (resumable_closeLook cap) hlook heof c []).mono fun r hr => ?_
  obtain ⟨-, hwhole⟩ := hr
  unfold whole closeLook at hwhole
  by_cases hcap : cap < c.stream.length
  · rw [if_pos (by simpa using hcap)] at hwhole
    cases hwhole
  · rw [if_neg (by simpa using hcap)] at hwhole
    split_ifs at hwhole
    · cases hwhole
    · have heq := Except.ok.inj hwhole
      rw [nil_append] at heq
      have h₁ : c.stream = r.1 := congrArg Prod.fst heq
      exact ⟨by rw [← h₁]; omega, h₁, (congrArg Prod.snd heq).symm⟩

/-- **`os_slurp_body` collects one body within its cap**, if the lines are plain. -/
theorem ensures_osSlurpBody {cap : ℕ} (hcap : cap < 2 ^ 30 - 1) (c : Conn) (resp : OsResponse)
    (h : resp.chunked = true → plainChunks false cap c.stream.length 0 c.stream = true) :
    Ensures (osSlurpBody c resp cap) fun r => r.1.length ≤ cap ∧
      ∃ wire, Body resp.framing wire r.1 r.2.stream ∧ c.stream = wire ++ r.2.stream := by
  unfold osSlurpBody
  by_cases hc : resp.chunked = true
  · rw [if_pos hc]
    refine (ensures_readChunks (accepts_slurpAccept hcap) cap.zero_le (h hc)).bind fun r hr => ?_
    obtain ⟨⟨got, total⟩, c'⟩ := r
    obtain ⟨-, wire, payload, hchunked, hstream, hle, hr⟩ := hr
    cases hr
    refine Ensures.ok ⟨?_, wire, ?_, hstream⟩
    · simpa using hle
    · rw [OsResponse.framing, if_pos hc]
      exact hchunked
  · rw [if_neg hc]
    by_cases hneg : resp.contentLength < 0
    · rw [if_pos hneg]
      refine (ensures_closeLook cap c).mono fun r hr => ?_
      obtain ⟨hle, hstream, hrest⟩ := hr
      refine ⟨hle, r.1, ?_, by rw [hrest, append_nil, hstream]⟩
      rw [OsResponse.framing, if_neg hc, if_pos hneg]
      exact ⟨rfl, hrest⟩
    rw [if_neg hneg]
    by_cases hmore : (cap : ℤ) < resp.contentLength
    · rw [if_pos hmore]
      exact Ensures.raised
    rw [if_neg hmore]
    have hint : wrap32 resp.contentLength = resp.contentLength := by
      rw [wrap32, bmod_def]
      split_ifs <;> omega
    rw [enlargeStringInfo, hint, if_neg (by omega)]
    refine (ensures_osReadExact (by simp [fits]) c).mono fun r hr => ?_
    obtain ⟨-, hlen, hstream⟩ := hr
    refine ⟨by omega, r.1, ?_, hstream⟩
    rw [OsResponse.framing, if_neg hc, if_neg hneg]
    exact ⟨rfl, hlen⟩

end PgColumnar.ObjStore
