import Mathlib.Order.Lattice.Nat
import PgColumnar.ObjStore.CText
import PgColumnar.Lib.Staged

/-!
# Reading from a connection

A connection to an object store is read through a staging buffer (`rb`).  What the server sends
arrives in receives of any length; `recvs` are those that are still to come, and at their end the
server has closed the connection, or a receive fails.  TLS changes neither.

A reader ends in one of three ways besides its result: it raises, it gives the connection up and
asks again on another one, or it writes outside its destination, behind which nothing is known.

## Main definitions

* `Conn`, `osReadExact`, `osReadLine` — a connection, and the readers of it.
* `Ensures` — what a reader writes and returns.
-/

namespace PgColumnar.ObjStore

open Bytes Iceberg Staged List

/-- What a reader raises. -/
inductive OsError
  | readFailed
  | closedMidResponse
  | oversizedHead
  | notHttp
  | closedMidBody
  | oversizedChunkHeader
  | badChunkSize
  | moreThanRequested
  | sentOfRequested (sent want : ℤ)
  | bodyWithNoLength
  | exceeded (cap : ℕ)
  | badEnlargement
  | denied
  | doesNotExist
  | unexpectedStatus (status : ℤ)
  | reportedNoLength
  | ignoredRange
  | changed
  | exceededKeys
  | exceededPages
  | truncatedWithoutKeys
  | notAdvancing
  | notListable
  | notBucketPrefix
  deriving DecidableEq

inductive Stop
  | raised (e : OsError)
  /-- The connection is given up and the request sent again on another one, or the statement
  ends. -/
  | again
  /-- A write outside the destination, or a read outside the buffer. -/
  | outside
  deriving DecidableEq

/-- A connection, as its reader sees it. -/
structure Conn where
  /-- The bytes of the staging buffer that are not consumed. -/
  rb : List Byte
  /-- What each later receive brings. -/
  recvs : List (List Byte)
  /-- After the last receive reading fails, and the connection was not closed in order. -/
  resets : Bool
  deriving DecidableEq

/-- The bytes that are still to be read. -/
def Conn.stream (c : Conn) : List Byte := c.rb ++ c.recvs.flatten

/-- The loops that call `os_fill` when the buffer does not hold what they need. -/
def Conn.drive {σ β : Type} (c : Conn) (look : σ → List Byte → Except Stop (Look Byte σ β))
    (eof : σ → List Byte → Except Stop β) (s : σ) : Except Stop (β × Conn) :=
  (Staged.drive look (fun s rest => if c.resets then .error (.raised .readFailed) else eof s rest)
    s c.rb c.recvs).map fun (b, rest, recvs) => (b, ⟨rest, recvs, c.resets⟩)

/-- The destination is absent or holds so many bytes. -/
def fits (dst : Option ℕ) (n : ℕ) : Bool :=
  match dst with
  | none => true
  | some room => decide (n ≤ room)

/-- `os_take` and the loop of `os_read_exact`: `s.2` bytes are missing, `s.1` are written. -/
def exactLook (dst : Option ℕ) (s : List Byte × ℕ) (rb : List Byte) :
    Except Stop (Look Byte (List Byte × ℕ) (List Byte)) :=
  if !fits dst (s.1.length + (rb.take s.2).length) then .error .outside
  else if s.2 ≤ rb.length then .ok (.done (s.1 ++ rb.take s.2) (rb.drop s.2))
  else .ok (.more (s.1 ++ rb.take s.2, s.2 - rb.length) [])

/-- `os_read_exact`; `dst` is the room from the place it writes at, absent for `NULL`. -/
def osReadExact (c : Conn) (dst : Option ℕ) (n : ℕ) : Except Stop (List Byte × Conn) :=
  c.drive (exactLook dst) (fun _ _ => .error (.raised .closedMidBody)) ([], n)

/-- The `char line[64]` of the callers. -/
def lineCap : ℕ := 64

/-- The inner loop of `os_read_line`. -/
def lineLook : CString → List Byte → Except Stop (Look Byte CString CString)
  | used, [] => .ok (.more used [])
  | used, b :: rb =>
    if b = 10 then .ok (.done used rb)
    else if b = 13 then lineLook used rb
    else if lineCap ≤ used.length + 1 then .error (.raised .oversizedChunkHeader)
    else lineLook (used ++ [b]) rb

/-- `os_read_line` -/
def osReadLine (c : Conn) : Except Stop (CString × Conn) :=
  c.drive lineLook (fun _ _ => .error (.raised .closedMidBody)) []

/-! ### What a reader ensures -/

/-- The reader writes only inside its destination, and a result has the property. -/
def Ensures {β : Type} (r : Except Stop β) (Q : β → Prop) : Prop :=
  r ≠ .error .outside ∧ ∀ b, r = .ok b → Q b

variable {β γ : Type} {Q : β → Prop}

theorem Ensures.ok {b : β} (h : Q b) : Ensures (.ok b) Q :=
  ⟨nofun, fun _ hb => Except.ok.inj hb ▸ h⟩

theorem Ensures.error {s : Stop} (h : s ≠ .outside) : Ensures (.error s) Q :=
  ⟨fun he => h (Except.error.inj he), nofun⟩

theorem Ensures.raised {e : OsError} : Ensures (.error (.raised e)) Q :=
  Ensures.error fun h => Stop.noConfusion h

variable {r : Except Stop β}

theorem Ensures.bind {f : β → Except Stop γ} {R : γ → Prop}
    (hr : Ensures r Q) (hf : ∀ b, Q b → Ensures (f b) R) : Ensures (r >>= f) R := by
  cases r with
  | error s => exact Ensures.error fun hs => hr.1 (hs ▸ rfl)
  | ok b => exact hf b (hr.2 b rfl)

theorem Ensures.mono {R : β → Prop} (hr : Ensures r Q) (h : ∀ b, Q b → R b) :
    Ensures r R := ⟨hr.1, fun b hb => h b (hr.2 b hb)⟩

/-! ### The readers -/

section Drive

/-- What a driven reader ensures: its result is found in one look at the whole stream, or at its
end. -/
theorem ensures_drive {σ : Type} {look : σ → List Byte → Except Stop (Look Byte σ β)}
    {eof : σ → List Byte → Except Stop β} (hr : Resumable look)
    (hlook : ∀ s x, look s x ≠ .error .outside)
    (heof : ∀ s x, eof s x ≠ .error .outside) (c : Conn) (s : σ) :
    Ensures (c.drive look eof s) fun r => r.2.resets = c.resets ∧
      whole look (fun s rest => if c.resets then .error (.raised .readFailed) else eof s rest) s
        c.stream
        = .ok (r.1, r.2.stream) := by
  unfold Conn.drive
  cases hd : Staged.drive look
      (fun s rest => if c.resets then .error (.raised .readFailed) else eof s rest) s c.rb
        c.recvs with
  | error e =>
    apply Ensures.error
    intro he
    rw [he] at hd
    obtain ⟨s', x, h⟩ | ⟨s', x, h⟩ := ((drive_spec hr _ _ _).2 _ hd).1
    · exact hlook s' x h
    · split_ifs at h
      · cases h
      · exact heof s' x h
  | ok r =>
    obtain ⟨b, rest, recvs⟩ := r
    exact Ensures.ok ⟨rfl, (drive_spec hr _ _ _).1 _ hd⟩

end Drive

variable {dst : Option ℕ} {n : ℕ}

theorem fits_of_le {m : ℕ} (h : fits dst n = true) (hmn : m ≤ n) : fits dst m = true := by
  cases dst with
  | none => rfl
  | some room =>
    simp only [fits, decide_eq_true_eq] at h ⊢
    exact hmn.trans h

theorem resumable_exactLook (dst : Option ℕ) : Resumable (exactLook dst) where
  done := by
    intro s x b rest h y
    unfold exactLook at h ⊢
    split_ifs at h with h₁ h₂
    · cases h
      have hle : s.2 ≤ (x ++ y).length := by
        rw [length_append]
        omega
      rw [take_append_of_le_length h₂, drop_append_of_le_length h₂, if_neg h₁, if_pos hle]
    · cases h
  more := by
    intro s x s' rest h y
    unfold exactLook at h
    split_ifs at h with h₁ h₂
    · cases h
    · cases h
      have hx : x.take s.2 = x := take_of_length_le (by omega)
      have htake : (x ++ y).take s.2 = x ++ y.take (s.2 - x.length) := by
        rw [take_append, hx]
      have hdrop : (x ++ y).drop s.2 = y.drop (s.2 - x.length) := by
        rw [drop_append, drop_of_length_le (by omega), nil_append]
      have hiff : s.2 ≤ x.length + y.length ↔ s.2 - x.length ≤ y.length := by omega
      simp only [exactLook, hx, htake, hdrop, hiff, nil_append, length_append,
        append_assoc, Nat.add_assoc, Nat.sub_add_eq]

theorem final_exactLook (dst : Option ℕ) : Final (exactLook dst) := by
  intro s x e h y
  unfold exactLook at h ⊢
  split_ifs at h with h₁ h₂
  · rw [if_pos, h]
    cases hf : fits dst (s.1.length + ((x ++ y).take s.2).length) with
    | false => rfl
    | true =>
      rw [fits_of_le hf] at h₁
      · exact h₁
      · simp only [length_take, length_append]
        omega

theorem exactLook_whole {rest : List Byte} {x b : List Byte}
    {eof : List Byte × ℕ → List Byte → Except Stop (List Byte)} (heof : ∀ s y b, eof s y ≠ .ok b)
    (h : whole (exactLook dst) eof ([], n) x = .ok (b, rest)) :
    n ≤ x.length ∧ b = x.take n ∧ rest = x.drop n := by
  unfold whole exactLook at h
  split_ifs at h with h₁ h₂
  · cases h
    exact ⟨h₂, rfl, rfl⟩
  · dsimp only at h
    cases he : eof ([] ++ x.take n, n - x.length) [] with
    | error e =>
      rw [he] at h
      cases h
    | ok b' => exact absurd he (heof _ _ _)

/-- What `os_fill` ends with while body bytes are missing. -/
theorem closedMidBody_ne_ok (c : Conn) {β : Type} (b : β) :
    (if c.resets then .error (.raised .readFailed) else .error (.raised .closedMidBody)
      : Except Stop β) ≠ .ok b := by
  split_ifs <;> exact nofun

/-- What was read exactly was taken from the stream. -/
theorem stream_of_osReadExact {c : Conn} {r : List Byte × Conn}
    (h : osReadExact c dst n = .ok r) : r.2.resets = c.resets ∧ n ≤ c.stream.length ∧
      r.1 = c.stream.take n ∧ r.2.stream = c.stream.drop n := by
  unfold osReadExact Conn.drive at h
  cases hd : Staged.drive (exactLook dst)
    (fun s rest => if c.resets then .error (.raised .readFailed)
      else (fun _ _ => .error (.raised .closedMidBody)) s rest) ([], n) c.rb c.recvs with
  | error e =>
    rw [hd] at h
    cases h
  | ok p =>
    rw [hd] at h
    obtain ⟨bs, rest, recvs⟩ := p
    cases h
    exact ⟨rfl, exactLook_whole (fun _ _ => closedMidBody_ne_ok c)
      ((drive_spec (resumable_exactLook dst) _ _ _).1 _ hd)⟩

/-- **`os_read_exact` takes the next `n` bytes**, and stays inside a destination that holds them. -/
theorem ensures_osReadExact (hfit : fits dst n = true) (c : Conn) :
    Ensures (osReadExact c dst n) fun r =>
      r.2.resets = c.resets ∧ r.1.length = n ∧ c.stream = r.1 ++ r.2.stream := by
  refine ⟨fun h => ?_, fun r h => ?_⟩
  · have hlook : exactLook dst ([], n) c.stream ≠ .error .outside := by
      rw [exactLook, if_neg]
      · split_ifs <;> exact nofun
      · rw [fits_of_le hfit (by simp)]
        simp
    unfold osReadExact Conn.drive at h
    have hwhole := @drive_eq_whole _ _ _ _ (exactLook dst)
      (fun s rest => if c.resets then .error (.raised .readFailed)
        else (fun _ _ => .error (.raised .closedMidBody)) s rest)
      (resumable_exactLook dst) (final_exactLook dst) ([], n) c.rb c.recvs
    rw [show c.rb ++ c.recvs.flatten = c.stream from rfl] at hwhole
    cases hd : Staged.drive (exactLook dst)
      (fun s rest => if c.resets then .error (.raised .readFailed)
        else (fun _ _ => .error (.raised .closedMidBody)) s rest) ([], n) c.rb c.recvs with
    | ok p =>
      rw [hd] at h
      cases h
    | error e =>
      rw [hd] at h hwhole
      cases h
      unfold whole at hwhole
      cases hl : exactLook dst ([], n) c.stream with
      | error e =>
        rw [hl] at hwhole
        cases hwhole
        exact hlook hl
      | ok l =>
        rw [hl] at hwhole
        cases l with
        | done b rest => cases hwhole
        | more s' rest =>
          split_ifs at hwhole <;> cases hwhole
  · obtain ⟨hresets, hle, h₁, h₂⟩ := stream_of_osReadExact h
    refine ⟨hresets, ?_, ?_⟩
    · rw [h₁, length_take, Nat.min_eq_left hle]
    · rw [h₁, h₂, take_append_drop]

theorem resumable_lineLook : Resumable lineLook where
  done := by
    intro s x b rest h y
    induction x generalizing s with
    | nil => cases h
    | cons a x ih =>
      rw [lineLook] at h
      rw [cons_append, lineLook]
      split_ifs at h ⊢
      · cases h
        rfl
      · exact ih h
      · exact ih h
  more := by
    intro s x s' rest h y
    induction x generalizing s with
    | nil =>
      cases h
      rfl
    | cons a x ih =>
      rw [lineLook] at h
      rw [cons_append, lineLook]
      split_ifs at h ⊢
      · cases h
      · exact ih h
      · exact ih h

theorem lineLook_ne_outside (used : CString) (x : List Byte) :
    lineLook used x ≠ .error .outside := by
  induction x generalizing used with
  | nil => exact nofun
  | cons b x ih =>
    rw [lineLook]
    split_ifs
    · exact nofun
    · exact ih used
    · exact fun h => nomatch h
    · exact ih _

/-- The bytes of a line before its end, of which `CR` is not kept. -/
theorem lineLook_done {rest : List Byte} {used line : CString} {x : List Byte}
    (h : lineLook used x = .ok (.done line rest)) (hused : used.length < lineCap) :
    ∃ raw, x = raw ++ 10 :: rest ∧ 10 ∉ raw ∧ line = used ++ raw.filter (· ≠ 13) ∧
      line.length < lineCap := by
  induction x generalizing used with
  | nil => cases h
  | cons b x ih =>
    rw [lineLook] at h
    split_ifs at h with hlf hcr hcap
    · cases h
      exact ⟨[], by rw [hlf]; rfl, not_mem_nil, by simp, hused⟩
    · obtain ⟨raw, rfl, hraw, hline, hlen⟩ := ih h hused
      refine ⟨b :: raw, rfl, not_mem_cons_of_ne_of_not_mem (Ne.symm hlf) hraw, ?_, hlen⟩
      rw [hline, hcr]
      simp
    · have hlt : (used ++ [b]).length < lineCap := by
        rw [length_append, length_singleton]
        omega
      obtain ⟨raw, rfl, hraw, hline, hlen⟩ := ih h hlt
      refine ⟨b :: raw, rfl, not_mem_cons_of_ne_of_not_mem (Ne.symm hlf) hraw, ?_, hlen⟩
      rw [hline, filter_cons_of_pos (by simpa using hcr), append_assoc, singleton_append]

/-- **`os_read_line` takes the bytes up to the next `LF`.** -/
theorem ensures_osReadLine (c : Conn) : Ensures (osReadLine c) fun r =>
    r.2.resets = c.resets ∧ r.1.length < lineCap ∧
      ∃ raw, c.stream = raw ++ 10 :: r.2.stream ∧ 10 ∉ raw ∧ r.1 = raw.filter (· ≠ 13) := by
  have heof : ∀ (s x : List Byte),
      (.error (.raised .closedMidBody) : Except Stop CString) ≠ .error .outside :=
    fun _ _ h => Stop.noConfusion (Except.error.inj h)
  apply (ensures_drive resumable_lineLook lineLook_ne_outside heof c []).mono
  intro r hr
  obtain ⟨hresets, hwhole⟩ := hr
  unfold whole at hwhole
  cases hl : lineLook [] c.stream with
  | error e =>
    rw [hl] at hwhole
    cases hwhole
  | ok l =>
    rw [hl] at hwhole
    cases l with
    | done line rest =>
      cases hwhole
      obtain ⟨raw, hx, hraw, hline, hlen⟩ := lineLook_done hl (by decide)
      exact ⟨hresets, hlen, raw, hx, hraw, hline⟩
    | more s' rest =>
      split_ifs at hwhole <;> cases hwhole

end PgColumnar.ObjStore
