import PgColumnar.Lib.Bytes
import PgColumnar.Lib.Run
import PgColumnar.Scan.AnalyzeSample

/-!
# The logical bytes of a storage

Logical offsets run over the payloads of the pages.  A write formats every page that it
touches before it copies its bytes there, so what an earlier write left on such a page is
gone, and reservations begin at page boundaries for this reason.  A read goes through a
stream of buffers or asks for one buffer after the other.

## Main definitions

* `Fork`, `Fork.writeLogicalData` — pages, and bytes written across them.
* `Fork.readLogicalData` — read back, page by page or from a stream.

## Main results

* `readLogicalData_eq` — both paths return the bytes at the offsets.
* `logicalData_read` — a read finds what was written last.
-/

namespace PgColumnar.Storage

open Bytes Run List Nat
open Analyze (PageSize pageRoundUp firstLogicalOffset)

variable (P : PageSize)

/-- The main fork: the number of its blocks and the payload of each. -/
structure Fork where
  nblocks : ℕ
  payload : ℕ → ℕ → Byte

/-- The server does not extend a fork past `blocks`: a `BlockNumber` has 32 bits. -/
structure MaxBlocks where
  blocks : ℕ
  lt : blocks < 2 ^ 32
  bytes_lt : blocks * P.bytes < 2 ^ 64

variable (M : MaxBlocks P)

/-- The block a logical offset lies in, a `BlockNumber`. -/
def blockOf (offset : ℕ) : ℕ := offset / P.bytes % 2 ^ 32

/-- `PageInit`, and the bytes copied behind the header. -/
def Fork.setPage (f : Fork) (blockno pageOffset : ℕ) (src : List Byte) : Fork :=
  { f with payload := fun b o =>
      if b = blockno then
        if pageOffset ≤ o ∧ o < pageOffset + src.length then src.getD (o - pageOffset) 0 else 0
      else f.payload b o }

/-- The empty pages up to the target block, and the target block. -/
def Fork.extend (f : Fork) (blockno : ℕ) : Fork where
  nblocks := blockno + 1
  payload := fun b o => if f.nblocks ≤ b ∧ b ≤ blockno then 0 else f.payload b o

/-- One turn of the loop of `PgColumnarWriteLogicalData`, an error where the server does not
extend the fork. -/
def Fork.writePage (f : Fork) (blockno pageOffset : ℕ) (src : List Byte) : Option Fork :=
  if blockno < f.nblocks then some (f.setPage blockno pageOffset src)
  else if blockno < M.blocks then some ((f.extend blockno).setPage blockno pageOffset src)
  else none

/-- The bytes of one turn of a loop. -/
def pieceLen (offset remaining : ℕ) : ℕ := min (P.bytes - offset % P.bytes) remaining

variable {P}

theorem pieceLen_pos {offset remaining : ℕ} (h : remaining ≠ 0) :
    0 < pieceLen P offset remaining := by
  have := mod_lt offset P.pos
  unfold pieceLen
  omega

variable (P)

/-- `PgColumnarWriteLogicalData` -/
def Fork.writeLogicalData (f : Fork) (offset : ℕ) (data : List Byte) : Option Fork :=
  if _h : data.length = 0 then some f
  else
    (f.writePage P M (blockOf P offset) (offset % P.bytes)
      (data.take (pieceLen P offset data.length))).bind fun f' =>
        f'.writeLogicalData (offset + pieceLen P offset data.length)
          (data.drop (pieceLen P offset data.length))
termination_by data.length
decreasing_by
  have := @pieceLen_pos P offset _ _h
  rw [length_drop]
  omega

/-- The copy out of one buffer, an error where there is no such block. -/
def Fork.readPage (f : Fork) (blockno pageOffset n : ℕ) : Option (List Byte) :=
  if blockno < f.nblocks then some ((range n).map fun i => f.payload blockno (pageOffset + i))
  else none

/-- The synchronous loop of `PgColumnarReadLogicalData`. -/
def Fork.readSync (f : Fork) (offset remaining : ℕ) : Option (List Byte) :=
  if _h : remaining = 0 then some []
  else
    (f.readPage (blockOf P offset) (offset % P.bytes) (pieceLen P offset remaining)).bind fun bs =>
      (f.readSync (offset + pieceLen P offset remaining)
        (remaining - pieceLen P offset remaining)).map (bs ++ ·)
termination_by remaining
decreasing_by
  have := @pieceLen_pos P offset _ _h
  omega

/-- The loop over a read stream, which has the blocks from `next` to `last`. -/
def Fork.readStream (f : Fork) (next last offset remaining : ℕ) : Option (List Byte) :=
  if _h : remaining = 0 then some []
  else if last < next then none
  else
    (f.readPage next (offset % P.bytes) (pieceLen P offset remaining)).bind fun bs =>
      (f.readStream (next + 1) last (offset + pieceLen P offset remaining)
        (remaining - pieceLen P offset remaining)).map (bs ++ ·)
termination_by remaining
decreasing_by
  have := @pieceLen_pos P offset _ _h
  omega

/-- `PgColumnarReadLogicalData`; `stream` is `pgcolumnar.enable_read_stream`. -/
def Fork.readLogicalData (f : Fork) (stream : Bool) (offset length : ℕ) : Option (List Byte) :=
  if length = 0 then some []
  else if stream then
    f.readStream P (blockOf P offset) (blockOf P (offset + length - 1)) offset length
  else f.readSync P offset length

/-! ### Reservations and writes -/

/-- `reservations` and `writes` record what was reserved and written, the last first. -/
structure Store where
  reservedOffset : ℕ
  fork : Fork
  reservations : List (ℕ × ℕ)
  writes : List (ℕ × List Byte)

/-- A new storage has the metapage and an empty page. -/
def Store.start : Store := ⟨firstLogicalOffset P, ⟨2, fun _ _ => 0⟩, [], []⟩

inductive Action where
  | reserve (dataLength : ℕ)
  | write (offset : ℕ) (data : List Byte)

/-- The bytes lie inside a reservation. -/
def Inside (r : ℕ × ℕ) (offset length : ℕ) : Prop := r.1 ≤ offset ∧ offset + length ≤ r.1 + r.2

instance (r : ℕ × ℕ) (offset length : ℕ) : Decidable (Inside r offset length) :=
  inferInstanceAs (Decidable (_ ∧ _))

/-- `PgColumnarReserveOffset`, and a write inside a reservation. -/
def step (s : Store) : Action → Option Store
  | .reserve dataLength => some { s with
      reservedOffset := (pageRoundUp P s.reservedOffset + dataLength) % 2 ^ 64
      reservations := (pageRoundUp P s.reservedOffset, dataLength) :: s.reservations }
  | .write offset data =>
    if ∃ r ∈ s.reservations, Inside r offset data.length then
      (s.fork.writeLogicalData P M offset data).map fun f =>
        { s with fork := f, writes := (offset, data) :: s.writes }
    else none

/-- The reservation ends within the blocks that the fork can have. -/
def Fits (s : Store) : Action → Prop
  | .reserve dataLength => pageRoundUp P s.reservedOffset + dataLength ≤ M.blocks * P.bytes
  | .write _ _ => True

/-- The byte written last at an offset. -/
def lastWritten : List (ℕ × List Byte) → ℕ → Option Byte
  | [], _ => none
  | w :: ws, x => if w.1 ≤ x ∧ x < w.1 + w.2.length then w.2[x - w.1]? else lastWritten ws x

/-- A write has bytes for the page of the offset. -/
def Touched (offset length x : ℕ) : Prop :=
  0 < length ∧ offset / P.bytes ≤ x / P.bytes ∧ P.bytes * (x / P.bytes) < offset + length

instance (offset length x : ℕ) : Decidable (Touched P offset length x) :=
  inferInstanceAs (Decidable (_ ∧ _))

/-- The byte that the last write to its page has written at an offset. -/
def pageWritten : List (ℕ × List Byte) → ℕ → Option Byte
  | [], _ => none
  | w :: ws, x =>
    if Touched P w.1 w.2.length x then if w.1 ≤ x then w.2[x - w.1]? else none
    else pageWritten ws x

/-- The byte at a logical offset. -/
def Fork.byteAt (f : Fork) (x : ℕ) : Byte := f.payload (x / P.bytes) (x % P.bytes)

variable {P M} {f f' : Fork} {offset x : ℕ} {data : List Byte}

/-! ### Writing -/

theorem page_add_le {p q : ℕ} (h : p < q) : P.bytes * p + P.bytes ≤ P.bytes * q := by
  rw [← mul_succ]
  exact mul_le_mul_left _ h

theorem blockOf_eq (h : offset / P.bytes < 2 ^ 32) : blockOf P offset = offset / P.bytes :=
  mod_eq_of_lt h

/-- What a write does to a fork. -/
structure Wrote (P : PageSize) (f f' : Fork) (offset : ℕ) (data : List Byte) : Prop where
  nblocks_le : f.nblocks ≤ f'.nblocks
  nblocks_lt : f.nblocks < 2 ^ 32 → f'.nblocks < 2 ^ 32
  touched : ∀ x, Touched P offset data.length x → x / P.bytes < f'.nblocks ∧
    f'.byteAt P x = if offset ≤ x then data.getD (x - offset) 0 else 0
  kept : ∀ x, x / P.bytes < f.nblocks → ¬ Touched P offset data.length x →
    f'.byteAt P x = f.byteAt P x

theorem writePage_spec (f : Fork) {p : ℕ} (r : ℕ) (src : List Byte) (hp : p < M.blocks) :
    ∃ f₁, f.writePage P M p r src = some f₁ ∧ f.nblocks ≤ f₁.nblocks ∧ p < f₁.nblocks ∧
      (f.nblocks < 2 ^ 32 → f₁.nblocks < 2 ^ 32) ∧
      (∀ o, f₁.payload p o = if r ≤ o ∧ o < r + src.length then src.getD (o - r) 0 else 0) ∧
      ∀ b o, b ≠ p → b < f.nblocks → f₁.payload b o = f.payload b o := by
  have hM := M.lt
  unfold Fork.writePage
  by_cases hin : p < f.nblocks
  · rw [if_pos hin]
    refine ⟨_, rfl, le_refl _, hin, id, fun o => if_pos rfl, ?_⟩
    intro b o hb _
    exact if_neg hb
  · rw [if_neg hin, if_pos hp]
    refine ⟨_, rfl, ?_, lt_succ_self p, fun _ => ?_, fun o => if_pos rfl, ?_⟩
    · exact Nat.le_succ_of_le (Nat.le_of_not_lt hin)
    · exact lt_of_le_of_lt hp hM
    · intro b o hb hlt
      refine (if_neg hb).trans (if_neg ?_)
      omega

/-- The page that a write begins on, and the page behind it. -/
theorem div_pieceLen {remaining : ℕ} (h : pieceLen P offset remaining < remaining) :
    (offset + pieceLen P offset remaining) / P.bytes = offset / P.bytes + 1 := by
  have hmod := mod_lt offset P.pos
  have hdiv := div_add_mod offset P.bytes
  have heq : offset + pieceLen P offset remaining = P.bytes * (offset / P.bytes + 1) := by
    rw [mul_succ]
    unfold pieceLen at h ⊢
    omega
  rw [heq, Nat.mul_div_cancel_left _ P.pos]

/-- A write makes the pages it touches anew, and leaves the others alone. -/
theorem writeLogicalData_spec (f : Fork) (offset : ℕ) (data : List Byte)
    (hM : ∀ x, Touched P offset data.length x → x / P.bytes < M.blocks) :
    ∃ f', f.writeLogicalData P M offset data = some f' ∧ Wrote P f f' offset data := by
  induction hk : data.length using Nat.strong_induction_on generalizing f offset data with
  | _ k ih =>
  subst hk
  rw [Fork.writeLogicalData]
  by_cases hlen : data.length = 0
  · rw [dif_pos hlen]
    exact ⟨f, rfl, le_refl _, id, fun x hx => absurd hx.1 (by omega), fun x _ _ => rfl⟩
  rw [dif_neg hlen]
  have hmod := mod_lt offset P.pos
  have hdiv := div_add_mod offset P.bytes
  have hpos := @pieceLen_pos P offset _ hlen
  have hn : pieceLen P offset data.length =
      min (P.bytes - offset % P.bytes) data.length := rfl
  have hnext := @div_pieceLen P offset data.length
  have hpage : offset / P.bytes < M.blocks :=
    hM offset ⟨by omega, le_refl _, by omega⟩
  generalize pieceLen P offset data.length = n at hpos hn hnext ⊢
  rw [blockOf_eq (lt_trans hpage M.lt)]
  obtain ⟨f₁, hf₁, hle₁, hin₁, hlt₁, hat₁, hother₁⟩ :=
    writePage_spec f (offset % P.bytes) (data.take n) hpage
  have htake : (data.take n).length = n := by
    rw [length_take]
    omega
  have hdrop : (data.drop n).length = data.length - n := length_drop
  -- what the later turns touch is behind the first page
  have hrest : ∀ x, Touched P (offset + n) (data.drop n).length x →
      Touched P offset data.length x ∧ offset / P.bytes < x / P.bytes := by
    intro x hx
    have := hnext (by have := hx.1; omega)
    obtain ⟨_, hfirst, hlast⟩ := hx
    exact ⟨⟨by omega, by omega, by omega⟩, by omega⟩
  obtain ⟨f', hf', hw⟩ := ih _ (by omega) f₁ (offset + n) (data.drop n)
    (fun x hx => hM x (hrest x hx).1) rfl
  refine ⟨f', ?_, le_trans hle₁ hw.nblocks_le, hw.nblocks_lt ∘ hlt₁, ?_, ?_⟩
  · rw [hf₁]
    exact hf'
  · intro x hx
    have hxmod := mod_lt x P.pos
    have hxdiv := div_add_mod x P.bytes
    obtain ⟨_, hfirst, hlast⟩ := hx
    rcases lt_or_eq_of_le hfirst with hlt | heq
    · -- a later page
      have hpast := page_add_le (P := P) hlt
      obtain ⟨hin, hat⟩ := hw.touched x ⟨by omega, by rw [hnext (by omega)]; exact hlt, by omega⟩
      refine ⟨hin, ?_⟩
      rw [hat, if_pos (by omega), if_pos (by omega), getD_eq_getElem?_getD, getElem?_drop,
        getD_eq_getElem?_getD]
      congr 2
      omega
    · -- the page of the first turn
      rw [← heq] at hxdiv
      have hkept := hw.kept x (by omega) fun hx => absurd (hrest x hx).2 (by omega)
      refine ⟨lt_of_lt_of_le (heq ▸ hin₁) hw.nblocks_le, ?_⟩
      rw [hkept, Fork.byteAt, ← heq, hat₁, htake]
      by_cases hx : offset ≤ x
      · rw [if_pos hx]
        by_cases hxn : x % P.bytes < offset % P.bytes + n
        · rw [if_pos (by omega), getD_eq_getElem?_getD, getElem?_take_of_lt (by omega),
            getD_eq_getElem?_getD]
          congr 2
          omega
        · rw [if_neg (by omega), getD_eq_default _ _ (by omega)]
      · rw [if_neg hx, if_neg (by omega)]
  · intro x hin hx
    have hne : x / P.bytes ≠ offset / P.bytes := by
      intro heq
      exact hx ⟨by omega, heq.ge, by rw [heq]; omega⟩
    rw [hw.kept x (lt_of_lt_of_le hin hle₁) fun h => hx (hrest x h).1]
    exact hother₁ _ _ hne hin

/-! ### Reading -/

theorem readPage_eq (remaining : ℕ) (hin : offset / P.bytes < f.nblocks) :
    f.readPage (offset / P.bytes) (offset % P.bytes) (pieceLen P offset remaining) =
      some ((range' offset (pieceLen P offset remaining)).map (f.byteAt P)) := by
  have hdiv := div_add_mod offset P.bytes
  rw [Fork.readPage, if_pos hin, range'_eq_map_range, map_map]
  refine congrArg some (map_congr_left fun i hi => ?_)
  have hi := mem_range.mp hi
  have hlt : offset % P.bytes + i < P.bytes := by
    unfold pieceLen at hi
    omega
  have hx : offset + i = P.bytes * (offset / P.bytes) + (offset % P.bytes + i) := by omega
  simp only [Function.comp_apply, Fork.byteAt]
  rw [hx, mul_add_div P.pos, div_eq_of_lt hlt, add_zero, mul_add_mod,
    mod_eq_of_lt hlt]

/-- The blocks of the bytes are there. -/
def Fork.Has (P : PageSize) (f : Fork) (offset length : ℕ) : Prop :=
  ∀ x, offset ≤ x → x < offset + length → x / P.bytes < f.nblocks

/-- One turn, and the later ones. -/
theorem map_range'_pieceLen {remaining : ℕ} (g : ℕ → Byte) :
    (range' offset (pieceLen P offset remaining)).map g ++
        (range' (offset + pieceLen P offset remaining)
          (remaining - pieceLen P offset remaining)).map g =
      (range' offset remaining).map g := by
  have hle : pieceLen P offset remaining ≤ remaining := min_le_right _ _
  rw [← map_append, range'_append_1, add_sub_of_le hle]

theorem Fork.Has.pieceLen {remaining : ℕ} (h : f.Has P offset remaining) :
    f.Has P (offset + pieceLen P offset remaining) (remaining - pieceLen P offset remaining) := by
  intro x hx hx'
  exact h x (by omega) (by omega)

theorem readSync_eq (hlt : f.nblocks < 2 ^ 32) {remaining : ℕ} (h : f.Has P offset remaining) :
    f.readSync P offset remaining = some ((range' offset remaining).map (f.byteAt P)) := by
  induction remaining using Nat.strong_induction_on generalizing offset with
  | _ remaining ih =>
  rw [Fork.readSync]
  by_cases hlen : remaining = 0
  · rw [dif_pos hlen, hlen]
    rfl
  have hpos := @pieceLen_pos P offset _ hlen
  have hpage := h offset (le_refl _) (by omega)
  rw [dif_neg hlen, blockOf_eq (lt_trans hpage hlt), readPage_eq remaining hpage,
    Option.bind_some, ih _ (by omega) h.pieceLen, Option.map_some, map_range'_pieceLen]

theorem readStream_eq {remaining last : ℕ} (h : f.Has P offset remaining)
    (hlast : remaining ≠ 0 → last = (offset + remaining - 1) / P.bytes) :
    ∀ next, (remaining ≠ 0 → next = offset / P.bytes) →
      f.readStream P next last offset remaining =
        some ((range' offset remaining).map (f.byteAt P)) := by
  induction remaining using Nat.strong_induction_on generalizing offset with
  | _ remaining ih =>
  intro next hnext
  rw [Fork.readStream]
  by_cases hlen : remaining = 0
  · rw [dif_pos hlen, hlen]
    rfl
  have hpos := @pieceLen_pos P offset _ hlen
  have hpage := h offset (le_refl _) (by omega)
  have hle : pieceLen P offset remaining ≤ remaining := min_le_right _ _
  have hwithin : ¬ last < offset / P.bytes := by
    rw [hlast hlen, not_lt]
    exact Nat.div_le_div_right (by omega)
  rw [dif_neg hlen, hnext hlen, if_neg hwithin, readPage_eq remaining hpage,
    Option.bind_some, ih _ (by omega) h.pieceLen ?_ _ fun hmore => ?_, Option.map_some,
    map_range'_pieceLen]
  · intro _
    rw [hlast hlen]
    congr 2
    omega
  · exact (div_pieceLen (by omega)).symm

/-- **Both paths** return the bytes at the offsets. -/
theorem readLogicalData_eq (hlt : f.nblocks < 2 ^ 32) {length : ℕ} (h : f.Has P offset length)
    (stream : Bool) :
    f.readLogicalData P stream offset length = some ((range' offset length).map (f.byteAt P)) := by
  unfold Fork.readLogicalData
  by_cases hlen : length = 0
  · rw [if_pos hlen, hlen]
    rfl
  rw [if_neg hlen]
  cases stream with
  | false => exact readSync_eq hlt h
  | true =>
    have hfirst := h offset (le_refl _) (by omega)
    have hlast := h (offset + length - 1) (by omega) (by omega)
    rw [if_pos rfl, blockOf_eq (lt_trans hfirst hlt), blockOf_eq (lt_trans hlast hlt)]
    exact readStream_eq h (fun _ => rfl) _ fun _ => rfl

/-! ### Runs -/

variable {s t : Store}

/-- What holds between two actions. -/
structure Inv (M : MaxBlocks P) (s : Store) : Prop where
  nblocks_lt : s.fork.nblocks < 2 ^ 32
  within : ∀ r ∈ s.reservations, P.bytes ∣ r.1 ∧ r.1 + r.2 ≤ s.reservedOffset ∧
    r.1 + r.2 ≤ M.blocks * P.bytes
  apart : s.reservations.Pairwise fun a b => b.1 + b.2 ≤ a.1
  written : ∀ x b, pageWritten P s.writes x = some b →
    x / P.bytes < s.fork.nblocks ∧ s.fork.byteAt P x = b

theorem inv_start : Inv M (Store.start P) :=
  ⟨show 2 < 2 ^ 32 by decide, nofun, Pairwise.nil, nofun⟩

theorem le_pageRoundUp (n : ℕ) : n ≤ pageRoundUp P n := by
  have hpos := P.pos
  have hdiv := div_add_mod (n + P.bytes - 1) P.bytes
  have hmod := mod_lt (n + P.bytes - 1) hpos
  rw [pageRoundUp, Nat.mul_comm]
  omega

theorem Inv.reserve (h : Inv M s) {dataLength : ℕ} (hfit : Fits P M s (.reserve dataLength))
    (hstep : step P M s (.reserve dataLength) = some t) : Inv M t := by
  cases hstep
  have hend : pageRoundUp P s.reservedOffset + dataLength ≤ M.blocks * P.bytes := hfit
  have hround := le_pageRoundUp (P := P) s.reservedOffset
  have hmod : (pageRoundUp P s.reservedOffset + dataLength) % 2 ^ 64 =
      pageRoundUp P s.reservedOffset + dataLength :=
    mod_eq_of_lt (lt_of_le_of_lt hend M.bytes_lt)
  refine ⟨h.nblocks_lt, ?_, pairwise_cons.mpr ⟨?_, h.apart⟩, h.written⟩
  · intro r hr
    rcases mem_cons.mp hr with rfl | hr
    · exact ⟨Dvd.intro_left _ rfl, hmod.ge, hend⟩
    · obtain ⟨hdvd, hle, hlt⟩ := h.within r hr
      exact ⟨hdvd, by simp only [hmod]; omega, hlt⟩
  · intro r hr
    have := (h.within r hr).2.1
    omega

/-- A write that is inside a reservation touches no page of another. -/
theorem Inv.not_touched (h : Inv M s) {r r' : ℕ × ℕ} (hr : r ∈ s.reservations)
    (hr' : r' ∈ s.reservations) {length : ℕ} (hin : Inside r offset length)
    (hout : ¬ Inside r' offset length) (hx : r'.1 ≤ x) (hx' : x < r'.1 + r'.2) :
    ¬ Touched P offset length x := by
  intro htouch
  obtain ⟨hlen, hfirst, hlast⟩ := htouch
  have hxdiv := div_add_mod x P.bytes
  have hxmod := mod_lt x P.pos
  have hne : r ≠ r' := fun heq => hout (heq ▸ hin)
  have : Std.Symm fun a b : ℕ × ℕ => a.1 + a.2 ≤ b.1 ∨ b.1 + b.2 ≤ a.1 := ⟨fun _ _ => Or.symm⟩
  have happart := (h.apart.imp fun {a b} (hab : b.1 + b.2 ≤ a.1) =>
    (Or.inr hab : a.1 + a.2 ≤ b.1 ∨ b.1 + b.2 ≤ a.1)).forall hr hr' hne
  obtain ⟨hfrom, hto⟩ := hin
  rcases happart with hbefore | hafter
  · -- the page of the offset begins behind the write
    obtain ⟨q, hq⟩ := (h.within r' hr').1
    have hpage : q ≤ x / P.bytes := (le_div_iff_mul_le P.pos).mpr (by rw [Nat.mul_comm]; omega)
    have := mul_le_mul_left P.bytes hpage
    omega
  · obtain ⟨q, hq⟩ := (h.within r hr).1
    have hpage : x / P.bytes < q := (div_lt_iff_lt_mul P.pos).mpr (by rw [Nat.mul_comm]; omega)
    have hle : q ≤ offset / P.bytes :=
      (le_div_iff_mul_le P.pos).mpr (by rw [Nat.mul_comm]; omega)
    omega

/-- A write inside a reservation succeeds. -/
theorem Inv.write (h : Inv M s) {r : ℕ × ℕ} (hr : r ∈ s.reservations)
    (hin : Inside r offset data.length) :
    ∃ f, step P M s (.write offset data) =
        some { s with fork := f, writes := (offset, data) :: s.writes } ∧
      Wrote P s.fork f offset data := by
  have hpages : ∀ x, Touched P offset data.length x → x / P.bytes < M.blocks := by
    intro x hx
    have hend := (h.within r hr).2.2
    have hlast := hx.2.2
    have hto := hin.2
    exact Nat.lt_of_mul_lt_mul_left (a := P.bytes) (by rw [Nat.mul_comm P.bytes M.blocks]; omega)
  obtain ⟨f, hf, hw⟩ := writeLogicalData_spec s.fork offset data hpages
  refine ⟨f, ?_, hw⟩
  simp only [step]
  rw [if_pos ⟨r, hr, hin⟩, hf]
  rfl

theorem Inv.step (h : Inv M s) (a : Action) (hstep : step P M s a = some t)
    (hfit : Fits P M s a) : Inv M t := by
  cases a with
  | reserve dataLength => exact h.reserve hfit hstep
  | write offset data =>
    obtain ⟨⟨r, hr, hin⟩, -⟩ := Option.ite_none_right_eq_some.mp hstep
    obtain ⟨f, hf, hw⟩ := h.write hr hin
    cases hf.symm.trans hstep
    refine ⟨hw.nblocks_lt h.nblocks_lt, h.within, h.apart, ?_⟩
    intro x b hx
    rw [pageWritten] at hx
    by_cases htouch : Touched P offset data.length x
    · rw [if_pos htouch] at hx
      obtain ⟨hblock, hbyte⟩ := hw.touched x htouch
      refine ⟨hblock, hbyte.trans ?_⟩
      by_cases hle : offset ≤ x
      · rw [if_pos hle] at hx ⊢
        rw [getD_eq_getElem?_getD, hx]
        rfl
      · rw [if_neg hle] at hx
        cases hx
    · rw [if_neg htouch] at hx
      obtain ⟨hblock, hbyte⟩ := h.written x b hx
      exact ⟨lt_of_lt_of_le hblock hw.nblocks_le, (hw.kept x hblock htouch).trans hbyte⟩

/-- **The logical bytes.**  A read returns, through either path, the bytes of the fork, cleared ones
too, and these are what the last writes to the pages have put there; a write leaves the bytes of
every other reservation as they are. -/
theorem logicalData_read {as : List Action} (hrun : run (step P M) (Store.start P) as = some s)
    (hfits : AllSteps (step P M) (Fits P M) (Store.start P) as) :
    (∀ (stream : Bool) (offset : ℕ) (bs : List Byte),
      (∀ i b, bs[i]? = some b → pageWritten P s.writes (offset + i) = some b) →
        s.fork.readLogicalData P stream offset bs.length = some bs) ∧
    (∀ (stream : Bool) (offset length : ℕ), s.fork.Has P offset length →
      s.fork.readLogicalData P stream offset length =
        some ((range' offset length).map (s.fork.byteAt P))) ∧
    ∀ offset data t, step P M s (.write offset data) = some t →
      ∀ r ∈ s.reservations, ¬ Inside r offset data.length → ∀ x, r.1 ≤ x → x < r.1 + r.2 →
        x / P.bytes < s.fork.nblocks → t.fork.byteAt P x = s.fork.byteAt P x := by
  have hinv : Inv M s := run_invariant_of (fun s a t hs hok ht => hs.step a ht hok) inv_start
    hfits hrun
  refine ⟨?_, fun stream offset length hhas => readLogicalData_eq hinv.nblocks_lt hhas stream, ?_⟩
  · intro stream offset bs hbs
    have hat : ∀ i (hi : i < bs.length), (offset + i) / P.bytes < s.fork.nblocks ∧
        s.fork.byteAt P (offset + i) = bs[i] := fun i hi =>
      hinv.written _ _ (hbs i _ (getElem?_eq_getElem hi))
    have hhas : s.fork.Has P offset bs.length := by
      intro x hx hx'
      have := (hat (x - offset) (by omega)).1
      rwa [add_sub_of_le hx] at this
    rw [readLogicalData_eq hinv.nblocks_lt hhas]
    refine congrArg some (ext_getElem (by simp) fun i hi hi' => ?_)
    simpa using (hat i hi').2
  · intro offset data t hstep r' hr' hout x hx hx' hblock
    obtain ⟨⟨r, hr, hin⟩, -⟩ := Option.ite_none_right_eq_some.mp hstep
    obtain ⟨f, hf, hw⟩ := hinv.write hr hin
    cases hf.symm.trans hstep
    exact hw.kept x hblock (hinv.not_touched hr hr' hin hout hx hx')

/-! ### A write that is read, and one that is lost -/

/-- A fork of 8 kB blocks. -/
def MaxBlocks.default : MaxBlocks .default := ⟨2 ^ 32 - 2, by decide, by decide⟩

/-- A reservation in a new storage, and the write that fills it. -/
def oneWrite (data : List Byte) : List Action := [.reserve data.length, .write 16336 data]

theorem fits_oneWrite (h : 16336 + data.length ≤ (2 ^ 32 - 2) * 8168) :
    AllSteps (step .default .default) (Fits .default .default) (Store.start .default)
      (oneWrite data) :=
  ⟨h, fun _ _ => ⟨trivial, fun _ _ => trivial⟩⟩

theorem run_oneWrite (h : 16336 + data.length ≤ (2 ^ 32 - 2) * 8168) :
    ∃ f, run (step .default .default) (Store.start .default) (oneWrite data) =
      some ⟨16336 + data.length, f, [(16336, data.length)], [(16336, data)]⟩ := by
  have hmod : (16336 + data.length) % 2 ^ 64 = 16336 + data.length :=
    mod_eq_of_lt (lt_of_le_of_lt h (by decide))
  have hreserve : step .default .default (Store.start .default) (.reserve data.length) =
      some ⟨16336 + data.length, ⟨2, fun _ _ => 0⟩, [(16336, data.length)], []⟩ :=
    congrArg some (congrArg (Store.mk · _ _ _) hmod)
  have hinv := inv_start.step (.reserve data.length) hreserve (fits_oneWrite h).1
  obtain ⟨f, hf, -⟩ := hinv.write mem_cons_self
    (show Inside _ 16336 data.length from ⟨le_rfl, le_rfl⟩)
  exact ⟨f, run_cons.mpr ⟨_, hreserve, run_cons.mpr ⟨_, hf, rfl⟩⟩⟩

/-- A page of sevens, and two bytes on the next page: three bytes are read over the boundary. -/
theorem logicalData_read_twoPages : ∃ s : Store,
    s.writes = [(16336, replicate 8168 7 ++ [1, 2])] ∧
      s.fork.readLogicalData .default true 24503 3 = some [7, 1, 2] ∧
      s.fork.readLogicalData .default false 24503 3 = some [7, 1, 2] := by
  have hfits : 16336 + (replicate 8168 (7 : Byte) ++ [1, 2]).length ≤ (2 ^ 32 - 2) * 8168 := by
    rw [length_append, length_replicate]
    decide
  obtain ⟨f, hrun⟩ := run_oneWrite hfits
  have hread := (logicalData_read hrun (fits_oneWrite hfits)).1
  have hwritten : ∀ i b, [(7 : Byte), 1, 2][i]? = some b →
      pageWritten .default [(16336, replicate 8168 7 ++ [1, 2])] (24503 + i) = some b := by
    intro i b hb
    have hi : i < 3 := (List.getElem?_eq_some_iff.mp hb).1
    have htouch : Touched .default 16336 (replicate 8168 (7 : Byte) ++ [1, 2]).length
      (24503 + i) := by
      rw [length_append, length_replicate]
      interval_cases i <;> decide
    rw [pageWritten, if_pos htouch, if_pos (by omega), ← hb]
    interval_cases i
    · rw [getElem?_append_left (by rw [length_replicate]; decide), getElem?_replicate]
      rfl
    · rw [getElem?_append_right (by rw [length_replicate]; decide), length_replicate]
      rfl
    · rw [getElem?_append_right (by rw [length_replicate]; decide), length_replicate]
      rfl
  exact ⟨_, rfl, hread true 24503 [7, 1, 2] hwritten, hread false 24503 [7, 1, 2] hwritten⟩

/-- The second byte is gone when the first is written again. -/
theorem not_lastWritten_read : ¬ ∀ (as : List Action) (s : Store),
    run (step .default .default) (Store.start .default) as = some s →
      ∀ (stream : Bool) (offset : ℕ) (bs : List Byte),
        (∀ i b, bs[i]? = some b → lastWritten s.writes (offset + i) = some b) →
          s.fork.readLogicalData .default stream offset bs.length = some bs := by
  intro h
  have hfits : 16336 + [(1 : Byte), 2].length ≤ (2 ^ 32 - 2) * 8168 := by decide
  obtain ⟨f, hrun⟩ := run_oneWrite hfits
  have hinv : Inv MaxBlocks.default ⟨16338, f, [(16336, 2)], [(16336, [1, 2])]⟩ :=
    run_invariant_of (fun s a t hs hok ht => hs.step a ht hok) inv_start (fits_oneWrite hfits) hrun
  obtain ⟨f', hf', hw⟩ := hinv.write mem_cons_self (show Inside _ 16336 [3].length by decide)
  have hrun' : run (step .default .default) (Store.start .default)
    (oneWrite [1, 2] ++ [.write 16336 [3]]) =
      some ⟨16338, f', [(16336, 2)], [(16336, [3]), (16336, [1, 2])]⟩ := by
    obtain ⟨s, hs, hrun⟩ := run_cons.mp hrun
    obtain ⟨t, ht, hrun⟩ := run_cons.mp hrun
    cases hrun
    exact run_cons.mpr ⟨s, hs, run_cons.mpr ⟨_, ht, run_cons.mpr ⟨_, hf', rfl⟩⟩⟩
  have hread := h _ _ hrun' true 16337 [2] (fun i b hb => by
    match i with
    | 0 => exact hb
    | i + 1 => cases hb)
  obtain ⟨hin, hzero⟩ := hw.touched 16337 (by decide)
  have hhas : f'.Has .default 16337 1 := by
    intro x hx hx'
    obtain rfl : x = 16337 := by omega
    exact hin
  have hbyte := (readLogicalData_eq (hw.nblocks_lt hinv.nblocks_lt) hhas true).symm.trans hread
  rw [range'_one, map_singleton, hzero] at hbyte
  exact absurd (Option.some.inj hbyte) (by decide)

end PgColumnar.Storage
