import PgColumnar.ObjStore.Body
import PgColumnar.Lib.Run

/-!
# Requests on one connection

A connection that stays open serves one request after another, and each caller reads its own reply:
`objstore_open` the head of a `HEAD`, `objstore_read` a range into a buffer, `os_list_request` and
`os_write_request` a small body, and `objstore_http_request` one body on a connection of its own.
What a reader leaves of its reply, or takes of the next one, every later request on the connection
gets.

Sending is not modelled, nor what the callers do with a reply after it is read; where they give the
connection up and ask again on another one, the run on this connection ends.

## Main definitions

* `Ask`, `serve`, `step` — requests on one connection.
* `Plain` — replies with plain heads and lines.

## Main results

* `inStep_of_plain` — a plain reply is read in step.
* `session_inStep` — every request of a run gets its own reply.
-/

namespace PgColumnar.ObjStore

open Bytes Iceberg Staged Run List

def osWriteMaxReply : ℕ := 1024 * 1024

def osListMaxBody : ℕ := 16 * 1024 * 1024

def restMaxResponse : ℕ := 64 * 1024 * 1024

/-- A ranged read: what of the handle and of the call the reply is checked against. -/
structure Range where
  off : ℤ
  /-- The length of the buffer. -/
  n : Fin llongMax
  /-- The length of the object, from its `HEAD`. -/
  len : ℤ
  pinQuery : Bool
  pinEtag : Bool

inductive Ask
  | head
  | get (r : Range)
  | list
  /-- With `expect` an answer came while the body was held back. -/
  | write (expect : Bool)
  | http (isHead : Bool)

/-- A reply that is only in between. -/
def interim (status : ℤ) : Bool := decide (100 ≤ status ∧ status < 200)

/-- `os_reply_bodiless` -/
def osReplyBodiless (status : ℤ) : Bool := interim status || status == 204 || status == 304

/-- `os_reply_until_close` -/
def osReplyUntilClose (resp : OsResponse) : Bool :=
  !osReplyBodiless resp.status && !resp.chunked && decide (resp.contentLength < 0)

/-- A reply that the caller had no byte of: the request goes out again, or fails. -/
def osGetHead (c : Conn) : Except Stop (OsResponse × Conn) := do
  let (resp, c) ← osReadHead c
  match resp with
  | none => .error .again
  | some resp => .ok (resp, c)

/-- `os_reject_403` -/
def osReject403 {β : Type} (c : Conn) (resp : OsResponse) (hasBody : Bool) : Except Stop β :=
  if hasBody && !resp.chunked && decide (0 < resp.contentLength ∧ resp.contentLength < 8192) then do
    let _ ← osReadExact c (some resp.contentLength.toNat) resp.contentLength.toNat
    .error (.raised .denied)
  else .error (.raised .denied)

/-- The connection, unless it is given up. -/
def keep (resp : OsResponse) (c : Conn) : Option Conn := if resp.connClose then none else some c

/-- The reply that `objstore_open` reads. -/
def serveHead (c : Conn) : Except Stop (Option (List Byte) × Option Conn) := do
  let (resp, c) ← osGetHead c
  if resp.status = 403 then osReject403 c resp false
  else if resp.status = 404 then .error (.raised .doesNotExist)
  else if resp.status ≠ 200 then .error (.raised (.unexpectedStatus resp.status))
  else if resp.contentLength < 0 then .error (.raised .reportedNoLength)
  else .ok (none, keep resp c)

/-- The reply that `objstore_read` reads. -/
def serveGet (r : Range) (c : Conn) : Except Stop (Option (List Byte) × Option Conn) := do
  let (resp, c) ← osGetHead c
  if resp.status = 200 then .error (.raised .ignoredRange)
  else if resp.status = 403 ∧ r.pinQuery then .error .again
  else if resp.status = 403 then osReject403 c resp true
  else if resp.status = 404 then .error (.raised .doesNotExist)
  else if resp.status = 412 ∧ r.pinEtag then .error (.raised .changed)
  else if resp.status = 416 ∧ r.off + (r.n : ℕ) ≤ r.len then .error (.raised .changed)
  else if resp.status ≠ 206 then .error (.raised (.unexpectedStatus resp.status))
  else if 0 ≤ resp.rangeTotal ∧ resp.rangeTotal ≠ r.len then .error (.raised .changed)
  else do
    let (buf, c) ← osReadBody c resp (some r.n)
    .ok (some buf, keep resp c)

/-- The reply that `os_list_request` reads. -/
def serveList (c : Conn) : Except Stop (Option (List Byte) × Option Conn) := do
  let (resp, c) ← osGetHead c
  if resp.status = 403 then osReject403 c resp true
  else if resp.status < 200 ∨ 300 ≤ resp.status then
    if 0 < resp.contentLength ∨ resp.chunked then do
      let _ ← osReadBody c resp none
      .error (.raised (.unexpectedStatus resp.status))
    else .error (.raised (.unexpectedStatus resp.status))
  else do
    let (body, c) ← osSlurpBody c resp osListMaxBody
    -- a close-delimited body leaves the connection at end of stream
    .ok (some body, if !resp.chunked && decide (resp.contentLength < 0) then none else keep resp c)

/-- `os_read_final_head`.  Each round takes a byte, so that nothing is left to read when the count
is used up. -/
def osReadFinalHead : ℕ → Conn → Except Stop (OsResponse × Conn)
  | 0, c => osGetHead c
  | k + 1, c => do
    let (resp, c) ← osGetHead c
    if interim resp.status then osReadFinalHead k c else .ok (resp, c)

/-- The head that answers a write.  An answer to the headers alone stands as the reply, except where
the store asks for the request again or closes behind a 2xx. -/
def osWriteHead (expect : Bool) (c : Conn) : Except Stop (OsResponse × Conn) :=
  if expect then do
    let (resp, c) ← osGetHead c
    if resp.status = 417 then .error .again
    else if 200 ≤ resp.status ∧ resp.status < 300 ∧ (resp.connClose ∨ osReplyUntilClose resp) then
      .error .again
    else if 200 ≤ resp.status then .ok (resp, c)
    else osReadFinalHead c.stream.length c
  else osReadFinalHead c.stream.length c

/-- The reply that `os_write_request` reads. -/
def serveWrite (expect : Bool) (c : Conn) : Except Stop (Option (List Byte) × Option Conn) := do
  let (resp, c) ← osWriteHead expect c
  if resp.status = 403 then osReject403 c resp true
  else if osReplyBodiless resp.status then .ok (none, keep resp c)
  else if !resp.chunked && decide ((osWriteMaxReply : ℤ) ≤ resp.contentLength) then do
    let (_, c) ← osReadBody c resp none
    .ok (none, keep resp c)
  else if resp.chunked || decide (resp.contentLength ≠ 0) then do
    let (body, c) ← osSlurpBody c resp osWriteMaxReply
    .ok (some body, if osReplyUntilClose resp then none else keep resp c)
  else .ok (none, keep resp c)

/-- The reply that `objstore_http_request` reads. -/
def serveHttp (isHead : Bool) (c : Conn) : Except Stop (Option (List Byte) × Option Conn) := do
  let (resp, c) ← osGetHead c
  if isHead then .ok (none, none)
  else do
    let (body, _) ← osSlurpBody c resp restMaxResponse
    .ok (some body, none)

/-- How a request reads its reply: what it delivers, and the connection if it stays open. -/
def serve : Ask → Conn → Except Stop (Option (List Byte) × Option Conn)
  | .head => serveHead
  | .get r => serveGet r
  | .list => serveList
  | .write expect => serveWrite expect
  | .http isHead => serveHttp isHead

/-- The next request on the same connection. -/
def step (c : Conn) (a : Ask) : Option Conn :=
  match serve a c with
  | .ok (_, next) => next
  | .error _ => none

/-! ### Replies in step -/

/-- The heads that are only in between, and the head that counts. -/
inductive FinalHead : List Byte → List (List Byte) → List Byte → List Byte → Prop
  | here {s head rest : List Byte} : cutHead s = some (head, rest) →
      interim (statusOf head) = false → FinalHead s [] head rest
  | skip {s i t head rest : List Byte} {is : List (List Byte)} : cutHead s = some (i, t) →
      interim (statusOf i) = true → FinalHead t is head rest → FinalHead s (i :: is) head rest

def Ask.asksHead : Ask → Bool
  | .head => true
  | .http isHead => isHead
  | _ => false

/-- One well-formed reply: interim heads, a head, and the body that it delimits, unless the request
or the status excludes one.  `rest` follows on the connection. -/
def IsAnswer (a : Ask) (wire payload rest : List Byte) : Prop :=
  ∃ (is : List (List Byte)) (head body : List Byte) (f : Framing), wire = is.flatten ++
    (head ++ body) ∧
    (∀ i ∈ is, IsHead i ∧ interim (statusOf i) = true) ∧
    IsHead head ∧ interim (statusOf head) = false ∧ framing head = some f ∧
    if a.asksHead || osReplyBodiless (statusOf head) then body = [] ∧ payload = []
    else Body f body payload rest

/-- What the request delivers is what the reply carries, within the bounds of its reader. -/
def Delivers : Ask → Option (List Byte) → List Byte → Prop
  | .head, taken, _ => taken = none
  | .get r, taken, payload => taken = some payload ∧ payload.length = r.n
  | .list, taken, payload => taken = some payload ∧ payload.length ≤ osListMaxBody
  | .write _, taken, payload =>
    ∀ body, taken = some body → body = payload ∧ body.length ≤ osWriteMaxReply
  | .http true, taken, _ => taken = none
  | .http false, taken, payload => taken = some payload ∧ payload.length ≤ restMaxResponse

/-- The request writes only inside its buffer, and without an error it gets what one well-formed
reply carries; a connection that stays open goes on behind that reply. -/
def InStep (c : Conn) (a : Ask) : Prop :=
  Ensures (serve a c) fun r => ∃ wire payload rest, c.stream = wire ++ rest ∧
    IsAnswer a wire payload rest ∧ Delivers a r.1 payload ∧ ∀ c', r.2 = some c' → c'.stream = rest

/-! ### Plain replies -/

/-- The status is one that the reply is read on. -/
def readsOn : Ask → ℤ → Bool
  | .head, status => status == 200
  | .get _, status => status == 206
  | .list, status => decide (200 ≤ status ∧ status < 300)
  | .write _, status => status != 403
  | .http _, _ => true

/-- The lines of the chunk framing, as far as the reader comes, are those of a well-formed body. -/
def PlainBody (wraps : Bool) (limit : ℕ) (head rest : List Byte) : Prop :=
  chunkedLast head = true → plainChunks wraps limit rest.length 0 rest = true

/-- A reply that is read as one with a body has one, or no byte would be read. -/
def HasBody (head rest : List Byte) : Prop :=
  osReplyBodiless (statusOf head) = true → rest = [] ∨ framing head = some (.length 0)

def PlainReply (a : Ask) (head rest : List Byte) : Prop :=
  readsOn a (statusOf head) = true → PlainHead head ∧
    match a with
    | .head => True
    | .get r => PlainBody true r.n head rest
    | .list => PlainBody false osListMaxBody head rest ∧ HasBody head rest
    | .write _ =>
      osReplyBodiless (statusOf head) = false → PlainBody false osWriteMaxReply head rest
    | .http isHead => interim (statusOf head) = false ∧
        (isHead = false → PlainBody false restMaxResponse head rest ∧ HasBody head rest)

/-- The head that is read as the one of the reply, and the lines of its body, are plain.  A write
that was answered early has got a status of three digits. -/
def Plain (c : Conn) : Ask → Prop
  | .write expect =>
    (∀ is head rest, FinalHead c.stream is head rest → PlainReply (.write expect) head rest) ∧
      (expect = true → ∀ head rest, cutHead c.stream = some (head, rest) → 100 ≤ statusOf head)
  | a => ∀ head rest, cutHead c.stream = some (head, rest) → PlainReply a head rest

variable {is : List (List Byte)} {head rest : List Byte}

theorem FinalHead.spec {s : List Byte}
    (h : FinalHead s is head rest) : s = is.flatten ++ (head ++ rest) ∧
      (∀ i ∈ is, IsHead i ∧ interim (statusOf i) = true) ∧
      IsHead head ∧ interim (statusOf head) = false := by
  induction h with
  | here hcut hfinal =>
    obtain ⟨rfl, hhead⟩ := cutHead_spec hcut
    exact ⟨rfl, nofun, hhead, hfinal⟩
  | skip hcut hinterim _ ih =>
    obtain ⟨rfl, hhead⟩ := cutHead_spec hcut
    obtain ⟨rfl, his, hrest⟩ := ih
    refine ⟨by rw [flatten_cons, append_assoc], ?_, hrest⟩
    intro i hi
    obtain rfl | hi := mem_cons.mp hi
    · exact ⟨hhead, hinterim⟩
    · exact his i hi

theorem ensures_osGetHead (c : Conn) : Ensures (osGetHead c) fun r =>
    ∃ head, parseHead head = .ok r.1 ∧ cutHead c.stream = some (head, r.2.stream) := by
  refine (ensures_osReadHead c).bind fun r hr => ?_
  obtain ⟨resp, c'⟩ := r
  cases resp with
  | none => exact Ensures.error fun h => Stop.noConfusion h
  | some resp => exact Ensures.ok (hr resp rfl)

variable {c : Conn}

theorem ensures_osReadFinalHead {k : ℕ} (hk : c.stream.length ≤ k) :
    Ensures (osReadFinalHead k c) fun r =>
      ∃ is head, parseHead head = .ok r.1 ∧ FinalHead c.stream is head r.2.stream := by
  induction k generalizing c with
  | zero =>
    refine (ensures_osGetHead c).mono fun r hr => ?_
    obtain ⟨head, -, hcut⟩ := hr
    rw [eq_nil_of_length_eq_zero (Nat.le_zero.mp hk)] at hcut
    cases hcut
  | succ k ih =>
    refine (ensures_osGetHead c).bind fun r hr => ?_
    obtain ⟨resp, c₁⟩ := r
    obtain ⟨head, hparse, hcut⟩ := hr
    dsimp only at hparse hcut ⊢
    rw [status_of_parseHead hparse]
    by_cases hi : interim (statusOf head) = true
    · rw [if_pos hi]
      have hlen : c₁.stream.length ≤ k := by
        obtain ⟨hstream, hhead⟩ := cutHead_spec hcut
        have h4 := hhead.1.length_le
        rw [hstream, length_append] at hk
        have : blankLine.length = 4 := rfl
        omega
      refine (ih hlen).mono fun r hr => ?_
      obtain ⟨is, head', hparse', hfinal⟩ := hr
      exact ⟨head :: is, head', hparse', FinalHead.skip hcut hi hfinal⟩
    · rw [if_neg hi]
      exact Ensures.ok ⟨[], head, hparse, FinalHead.here hcut (Bool.not_eq_true _ ▸ hi)⟩

/-! ### Each reader -/

theorem ensures_osReject403 {β : Type} (c : Conn) (resp : OsResponse) (hasBody : Bool)
    {Q : β → Prop} :
    Ensures (osReject403 c resp hasBody) Q := by
  unfold osReject403
  split_ifs
  · exact (ensures_osReadExact (by simp [fits]) c).bind fun _ _ => Ensures.raised
  · exact Ensures.raised

/-- A body that is discarded has no destination to leave. -/
theorem ensures_discard (c : Conn) (resp : OsResponse) :
    Ensures (osReadBody c resp none) fun r => resp.chunked = false →
      ∃ wire, Body resp.framing wire wire r.2.stream ∧ c.stream = wire ++ r.2.stream := by
  have htrailers : ∀ k c, Ensures (osReadTrailers k c) fun _ => True := by
    intro k
    induction k with
    | zero => exact fun c => (ensures_osReadLine c).bind fun _ _ => Ensures.raised
    | succ k ih =>
      intro c
      refine (ensures_osReadLine c).bind fun r _ => ?_
      dsimp only
      split_ifs
      · exact Ensures.ok trivial
      · exact ih r.2
  have hchunks : ∀ k c total got, Ensures (readChunks (bodyAccept none) k c total got) fun _ =>
    True := by
    intro k
    induction k with
    | zero => exact fun c _ _ => (ensures_osReadLine c).bind fun _ _ => Ensures.raised
    | succ k ih =>
      intro c total got
      refine (ensures_osReadLine c).bind fun r _ => ?_
      dsimp only
      split_ifs
      · exact Ensures.raised
      · exact (htrailers k r.2).bind fun _ _ => Ensures.ok trivial
      · refine Ensures.bind (Ensures.ok (Q := fun p => p.1 = none) rfl) fun p hp => ?_
        obtain ⟨room, total'⟩ := p
        cases hp
        exact (ensures_osReadExact rfl r.2).bind fun _ _ =>
          (ensures_osReadLine _).bind fun _ _ => ih _ _ _
  unfold osReadBody
  by_cases hc : resp.chunked = true
  · rw [if_pos hc]
    refine (hchunks _ c 0 []).bind fun r _ => Ensures.ok fun hf => ?_
    rw [hc] at hf
    cases hf
  · rw [if_neg hc]
    by_cases hneg : resp.contentLength < 0
    · rw [if_pos hneg]
      exact Ensures.raised
    rw [if_neg hneg]
    refine (ensures_osReadExact rfl c).bind fun r hr => Ensures.ok fun _ => ?_
    obtain ⟨-, hlen, hstream⟩ := hr
    refine ⟨r.1, ?_, hstream⟩
    rw [OsResponse.framing, if_neg hc, if_neg hneg]
    exact ⟨rfl, hlen⟩

variable {payload : List Byte} {wire : List Byte}

theorem Chunked.ne_nil (h : Chunked wire payload) : wire ≠ [] := by
  cases h with
  | last | chunk => simp [crlf]

variable {f : Framing}

/-- A reply without a body that is read as one with a body loses no byte by it. -/
theorem HasBody.nil {rest' : List Byte} (h : HasBody head rest)
    (hf : framing head = some f) (hbody : Body f wire payload rest') (hrest : rest = wire ++ rest')
    (hno : osReplyBodiless (statusOf head) = true) : wire = [] ∧ payload = [] := by
  obtain rfl | hzero := h hno
  · obtain ⟨rfl, rfl⟩ := append_eq_nil_iff.mp hrest.symm
    cases f with
    | chunked => exact absurd rfl (Chunked.ne_nil hbody)
    | length n | untilClose => exact ⟨rfl, hbody.1.symm⟩
  · rw [hf] at hzero
    cases hzero
    obtain ⟨rfl, hlen⟩ := hbody
    exact ⟨eq_nil_of_length_eq_zero hlen, eq_nil_of_length_eq_zero hlen⟩

theorem isAnswer_of_body {a : Ask} {body : List Byte}
    (his : ∀ i ∈ is, IsHead i ∧ interim (statusOf i) = true) (hhead : IsHead head)
    (hinterim : interim (statusOf head) = false) (hf : framing head = some f)
    (ha : a.asksHead = false)
    (hbody : Body f body payload rest)
    (hno : osReplyBodiless (statusOf head) = true → body = [] ∧ payload = []) :
    IsAnswer a (is.flatten ++ (head ++ body)) payload rest := by
  refine ⟨is, head, body, f, rfl, his, hhead, hinterim, hf, ?_⟩
  rw [ha, Bool.false_or]
  split_ifs with h
  · exact hno h
  · exact hbody

theorem isAnswer_of_none {a : Ask}
    (his : ∀ i ∈ is, IsHead i ∧ interim (statusOf i) = true) (hhead : IsHead head)
    (hinterim : interim (statusOf head) = false) (hf : framing head = some f)
    (hno : (a.asksHead || osReplyBodiless (statusOf head)) = true) :
    IsAnswer a (is.flatten ++ (head ++ [])) [] rest := by
  refine ⟨is, head, [], f, rfl, his, hhead, hinterim, hf, ?_⟩
  rw [if_pos hno]
  exact ⟨rfl, rfl⟩

theorem no_interim : ∀ i ∈ ([] : List (List Byte)), IsHead i ∧ interim (statusOf i) = true := nofun

theorem stream_of_keep {resp : OsResponse} {c' : Conn} (h : keep resp c = some c') : c' = c := by
  unfold keep at h
  split_ifs at h
  exact (Option.some.inj h).symm

theorem inStep_head (h : Plain c .head) : InStep c .head := by
  refine (ensures_osGetHead c).bind fun r hr => ?_
  obtain ⟨resp, c₁⟩ := r
  obtain ⟨head, hparse, hcut⟩ := hr
  dsimp only at hparse hcut ⊢
  have hstatus := status_of_parseHead hparse
  split_ifs with h₁ h₂ h₃ h₄
  · exact ensures_osReject403 _ _ _
  · exact Ensures.raised
  · exact Ensures.raised
  · exact Ensures.raised
  · rw [not_not] at h₃
    rw [hstatus] at h₃
    obtain ⟨hplain, -⟩ := h head c₁.stream hcut (by rw [h₃]; rfl)
    obtain ⟨hstream, hhead⟩ := cutHead_spec hcut
    refine Ensures.ok ⟨_, [], c₁.stream, ?_, isAnswer_of_none no_interim hhead (by rw [h₃]; rfl)
      (framing_of_plainHead hplain hparse) rfl, rfl, ?_⟩
    · rw [hstream, append_nil]
      rfl
    · intro c' hc'
      rw [stream_of_keep hc']

theorem inStep_get {r : Range} (h : Plain c (.get r)) : InStep c (.get r) := by
  refine (ensures_osGetHead c).bind fun p hp => ?_
  obtain ⟨resp, c₁⟩ := p
  obtain ⟨head, hparse, hcut⟩ := hp
  dsimp only at hparse hcut ⊢
  have hstatus := status_of_parseHead hparse
  split_ifs with h₁ h₂ h₃ h₄ h₅ h₆ h₇ h₈
  · exact Ensures.raised
  · exact Ensures.error fun h => Stop.noConfusion h
  · exact ensures_osReject403 _ _ _
  · exact Ensures.raised
  · exact Ensures.raised
  · exact Ensures.raised
  · exact Ensures.raised
  · exact Ensures.raised
  · rw [not_not, hstatus] at h₇
    obtain ⟨hplain, hlines⟩ := h head c₁.stream hcut (by rw [h₇]; rfl)
    obtain ⟨hstream, hhead⟩ := cutHead_spec hcut
    have hchunked := chunked_eq hplain hparse
    refine (ensures_osReadBody r.n.isLt c₁ resp fun hc =>
      hlines (hchunked ▸ hc)).bind fun p hp => ?_
    obtain ⟨buf, c₂⟩ := p
    obtain ⟨hlen, wire, hbody, hrest⟩ := hp
    refine Ensures.ok ⟨_, buf, c₂.stream, ?_, isAnswer_of_body no_interim hhead (by rw [h₇]; rfl)
      (framing_of_plainHead hplain hparse) rfl hbody ?_, ⟨rfl, hlen⟩, ?_⟩
    · rw [hstream, hrest, flatten_nil, nil_append, append_assoc]
    · intro hno
      rw [h₇] at hno
      cases hno
    · intro c' hc'
      rw [stream_of_keep hc']

theorem inStep_list (h : Plain c .list) : InStep c .list := by
  refine (ensures_osGetHead c).bind fun p hp => ?_
  obtain ⟨resp, c₁⟩ := p
  obtain ⟨head, hparse, hcut⟩ := hp
  dsimp only at hparse hcut ⊢
  have hstatus := status_of_parseHead hparse
  by_cases h403 : resp.status = 403
  · rw [if_pos h403]
    exact ensures_osReject403 _ _ _
  rw [if_neg h403]
  by_cases hrange : resp.status < 200 ∨ 300 ≤ resp.status
  · rw [if_pos hrange]
    split_ifs
    · exact (ensures_discard c₁ resp).bind fun _ _ => Ensures.raised
    · exact Ensures.raised
  rw [if_neg hrange]
  have hreads : readsOn .list (statusOf head) = true := by
    rw [← hstatus]
    simp only [readsOn, decide_eq_true_eq]
    omega
  have hinterim : interim (statusOf head) = false := by
    rw [← hstatus, interim, decide_eq_false_iff_not]
    omega
  obtain ⟨hplain, hlines, hhas⟩ := h head c₁.stream hcut hreads
  obtain ⟨hstream, hhead⟩ := cutHead_spec hcut
  have hchunked := chunked_eq hplain hparse
  have hframing := framing_of_plainHead hplain hparse
  refine (ensures_osSlurpBody (by decide) c₁ resp fun hc =>
    hlines (hchunked ▸ hc)).bind fun p hp => ?_
  obtain ⟨body, c₂⟩ := p
  obtain ⟨hle, wire, hbody, hrest⟩ := hp
  refine Ensures.ok ⟨_, body, c₂.stream, ?_,
    isAnswer_of_body no_interim hhead hinterim hframing rfl hbody
    (hhas.nil hframing hbody hrest), ⟨rfl, hle⟩, ?_⟩
  · rw [hstream, hrest, flatten_nil, nil_append, append_assoc]
  · intro c' hc'
    split_ifs at hc'
    rw [stream_of_keep hc']

theorem inStep_http {isHead : Bool} (h : Plain c (.http isHead)) : InStep c (.http isHead) := by
  refine (ensures_osGetHead c).bind fun p hp => ?_
  obtain ⟨resp, c₁⟩ := p
  obtain ⟨head, hparse, hcut⟩ := hp
  obtain ⟨hplain, hinterim, hbodyLines⟩ := h head c₁.stream hcut rfl
  obtain ⟨hstream, hhead⟩ := cutHead_spec hcut
  have hframing := framing_of_plainHead hplain hparse
  cases isHead with
  | true =>
    refine Ensures.ok ⟨_, [], c₁.stream, ?_,
      isAnswer_of_none no_interim hhead hinterim hframing rfl,
      rfl, nofun⟩
    rw [hstream, append_nil]
    rfl
  | false =>
    obtain ⟨hlines, hhas⟩ := hbodyLines rfl
    have hchunked := chunked_eq hplain hparse
    refine (ensures_osSlurpBody (by decide) c₁ resp fun hc => hlines (hchunked ▸ hc)).bind
      fun p hp => ?_
    obtain ⟨body, c₂⟩ := p
    obtain ⟨hle, wire, hbody, hrest⟩ := hp
    refine Ensures.ok ⟨_, body, c₂.stream, ?_,
      isAnswer_of_body no_interim hhead hinterim hframing rfl
      hbody (hhas.nil hframing hbody hrest), ⟨rfl, hle⟩, nofun⟩
    rw [hstream, hrest, flatten_nil, nil_append, append_assoc]

/-- The head that a write is answered by, behind those that are only in between. -/
theorem ensures_osWriteHead {expect : Bool}
    (h : expect = true → ∀ head rest, cutHead c.stream = some (head, rest) → 100 ≤ statusOf head) :
    Ensures (osWriteHead expect c) fun r =>
      ∃ is head, parseHead head = .ok r.1 ∧ FinalHead c.stream is head r.2.stream := by
  unfold osWriteHead
  cases expect with
  | false => exact ensures_osReadFinalHead le_rfl
  | true =>
    rw [if_pos rfl]
    refine (ensures_osGetHead c).bind fun p hp => ?_
    obtain ⟨resp, c₁⟩ := p
    obtain ⟨head, hparse, hcut⟩ := hp
    dsimp only at hparse hcut ⊢
    have hstatus := status_of_parseHead hparse
    split_ifs with h₁ h₂ h₃
    · exact Ensures.error fun h => Stop.noConfusion h
    · exact Ensures.error fun h => Stop.noConfusion h
    · refine Ensures.ok ⟨[], head, hparse, FinalHead.here hcut ?_⟩
      rw [← hstatus, interim, decide_eq_false_iff_not]
      omega
    · have h100 := h rfl head c₁.stream hcut
      have hinterim : interim (statusOf head) = true := by
        rw [interim, decide_eq_true_eq]
        omega
      refine (ensures_osReadFinalHead le_rfl).mono fun r hr => ?_
      obtain ⟨is, head', hparse', hfinal⟩ := hr
      exact ⟨head :: is, head', hparse', FinalHead.skip hcut hinterim hfinal⟩

theorem inStep_write {expect : Bool} (h : Plain c (.write expect)) : InStep c (.write expect) := by
  refine (ensures_osWriteHead h.2).bind fun p hp => ?_
  obtain ⟨resp, c₁⟩ := p
  obtain ⟨is, head, hparse, hfinal⟩ := hp
  dsimp only at hparse hfinal ⊢
  have hstatus := status_of_parseHead hparse
  -- a 403 is raised as an error
  by_cases h403 : resp.status = 403
  · rw [if_pos h403]
    exact ensures_osReject403 _ _ _
  rw [if_neg h403]
  obtain ⟨hplain, hlines⟩ := h.1 is head c₁.stream hfinal
    (by rw [← hstatus]; simpa [readsOn] using h403)
  obtain ⟨hstream, his, hhead, hinterim⟩ := hfinal.spec
  have hframing := framing_of_plainHead hplain hparse
  have hchunked := chunked_eq hplain hparse
  rw [hstatus]
  -- no body, a long one, one to collect, or one of length zero
  cases hno : osReplyBodiless (statusOf head) with
  | true =>
    rw [if_pos rfl]
    refine Ensures.ok ⟨_, [], c₁.stream, ?_, isAnswer_of_none his hhead hinterim hframing hno,
      nofun, ?_⟩
    · rw [hstream, append_nil, append_assoc]
    · intro c' hc'
      rw [stream_of_keep hc']
  | false =>
    rw [if_neg Bool.false_ne_true]
    have habsurd : osReplyBodiless (statusOf head) = true → ∀ p, p := by
      intro ht
      rw [hno] at ht
      cases ht
    by_cases hdrain : (!resp.chunked && decide ((osWriteMaxReply : ℤ) ≤ resp.contentLength)) = true
    · -- a long body is read and discarded
      rw [if_pos hdrain]
      have hc : resp.chunked = false := by
        rw [Bool.and_eq_true, Bool.not_eq_true'] at hdrain
        exact hdrain.1
      refine (ensures_discard c₁ resp).bind fun p hp => ?_
      obtain ⟨wire, hbody, hrest⟩ := hp hc
      refine Ensures.ok ⟨_, wire, p.2.stream, ?_,
        isAnswer_of_body his hhead hinterim hframing rfl hbody
        fun ht => habsurd ht _, nofun, ?_⟩
      · rw [hstream, hrest, append_assoc, append_assoc]
      · intro c' hc'
        rw [stream_of_keep hc']
    rw [if_neg hdrain]
    by_cases hslurp : (resp.chunked || decide (resp.contentLength ≠ 0)) = true
    · rw [if_pos hslurp]
      refine (ensures_osSlurpBody (by decide) c₁ resp fun hc => hlines hno (hchunked ▸ hc)).bind
        fun p hp => ?_
      obtain ⟨body, c₂⟩ := p
      obtain ⟨hle, wire, hbody, hrest⟩ := hp
      refine Ensures.ok ⟨_, body, c₂.stream, ?_,
        isAnswer_of_body his hhead hinterim hframing rfl hbody
        fun ht => habsurd ht _, ?_, ?_⟩
      · rw [hstream, hrest, append_assoc, append_assoc]
      · intro b hb
        cases hb
        exact ⟨rfl, hle⟩
      · intro c' hc'
        split_ifs at hc'
        rw [stream_of_keep hc']
    · -- a length of zero
      rw [if_neg hslurp]
      have hzero : resp.framing = .length 0 := by
        rw [Bool.not_eq_true, Bool.or_eq_false_iff, decide_eq_false_iff_not, not_not] at hslurp
        rw [OsResponse.framing, hslurp.1, hslurp.2]
        rfl
      have hbody : Body resp.framing [] [] c₁.stream := by
        rw [hzero]
        exact ⟨rfl, rfl⟩
      refine Ensures.ok ⟨_, [], c₁.stream, ?_,
        isAnswer_of_body his hhead hinterim hframing rfl hbody
        fun ht => habsurd ht _, nofun, ?_⟩
      · rw [hstream, append_nil, append_assoc]
      · intro c' hc'
        rw [stream_of_keep hc']

/-- **A plain reply is read in step.** -/
theorem inStep_of_plain {a : Ask} (h : Plain c a) : InStep c a := by
  cases a with
  | head => exact inStep_head h
  | get r => exact inStep_get h
  | list => exact inStep_list h
  | write expect => exact inStep_write h
  | http isHead => exact inStep_http h

/-! ### Runs -/

/-- One reply for each request, in their order. -/
def Replies (asks : List Ask) (wires : List (List Byte)) : Prop :=
  List.Forall₂ (fun a wire => ∃ payload rest, IsAnswer a wire payload rest) asks wires

/-- **Every request of a run gets its own reply**, if the replies are plain: none writes outside its
buffer, each delivers what one well-formed reply carries, and a connection that is still open has
taken exactly one reply for each request. -/
theorem session_inStep {c : Conn} {asks : List Ask} (h : AllSteps step Plain c asks) :
    AllSteps step InStep c asks ∧ ∀ c', run step c asks = some c' →
      ∃ wires, Replies asks wires ∧ c.stream = wires.flatten ++ c'.stream := by
  induction asks generalizing c with
  | nil =>
    refine ⟨trivial, fun c' hc' => ⟨[], List.Forall₂.nil, ?_⟩⟩
    cases hc'
    rfl
  | cons a asks ih =>
    have hstep := inStep_of_plain h.1
    refine ⟨⟨hstep, fun c₁ hc₁ => (ih (h.2 c₁ hc₁)).1⟩, fun c' hrun => ?_⟩
    obtain ⟨c₁, hc₁, hrun⟩ := run_cons.mp hrun
    obtain ⟨wires, hwires, hrest⟩ := (ih (h.2 c₁ hc₁)).2 c' hrun
    unfold step at hc₁
    cases hserve : serve a c with
    | error e =>
      rw [hserve] at hc₁
      cases hc₁
    | ok r =>
      rw [hserve] at hc₁
      obtain ⟨wire, payload, rest, hstream, hanswer, -, hnext⟩ := hstep.2 r hserve
      refine ⟨wire :: wires, List.Forall₂.cons ⟨payload, rest, hanswer⟩ hwires, ?_⟩
      rw [hstream, ← hnext c₁ hc₁, hrest, flatten_cons, append_assoc]

/-- A ranged read of two bytes. -/
def twoBytes : Range := ⟨0, ⟨2, by decide⟩, 2, false, false⟩

/-- Two bytes in one chunk, in two receives, and the reply to the next request behind them. -/
def twoReplies : Conn where
  rb := []
  recvs := [ascii "HTTP/1.1 206 OK\r\nTransfer-Encoding: chunked\r\n\r\n2\r\nA",
    ascii "B\r\n0\r\n\r\nHTTP/1.1 200 OK\r\nContent-Length: 9\r\n\r\n"]
  resets := false

theorem session_inStep_twoReplies : AllSteps step InStep twoReplies [.get twoBytes, .head] ∧
    ∀ c', run step twoReplies [.get twoBytes, .head] = some c' →
      ∃ wires, Replies [.get twoBytes, .head] wires ∧
        twoReplies.stream = wires.flatten ++ c'.stream := by
  refine session_inStep ⟨?_, fun c₁ hc₁ => ⟨?_, fun _ _ => trivial⟩⟩
  · intro head rest hcut hreads
    have h : cutHead twoReplies.stream = some
      (ascii "HTTP/1.1 206 OK\r\nTransfer-Encoding: chunked\r\n\r\n",
        ascii "2\r\nAB\r\n0\r\n\r\nHTTP/1.1 200 OK\r\nContent-Length: 9\r\n\r\n") := by decide
    rw [h] at hcut
    cases hcut
    exact ⟨⟨by decide, by decide, by decide, by decide⟩, fun _ => by decide⟩
  · have h : step twoReplies (.get twoBytes) =
        some ⟨ascii "HTTP/1.1 200 OK\r\nContent-Length: 9\r\n\r\n", [], false⟩ := by decide
    rw [h] at hc₁
    cases hc₁
    intro head rest hcut hreads
    have h : cutHead
      (Conn.stream ⟨ascii "HTTP/1.1 200 OK\r\nContent-Length: 9\r\n\r\n", [], false⟩) =
        some (ascii "HTTP/1.1 200 OK\r\nContent-Length: 9\r\n\r\n", []) := by decide
    rw [h] at hcut
    cases hcut
    exact ⟨⟨by decide, by decide, by decide, by decide⟩, trivial⟩

/-- Behind one byte a chunk whose size takes the total past the greatest `int64`. -/
def wrappingChunk : Conn where
  rb := []
  recvs := [ascii
    "HTTP/1.1 206 OK\r\nTransfer-Encoding: chunked\r\n\r\n1\r\nA\r\n7fffffffffffffff\r\nBCD"]
  resets := false

/-- The third and fourth byte are written behind the buffer of two. -/
theorem not_inStep : ¬ ∀ c asks, AllSteps step InStep c asks := fun h =>
  (h wrappingChunk [.get twoBytes]).1.1 (by decide)

end PgColumnar.ObjStore
