import PgColumnar.Copy.Split

/-!
# What the workers load together

A range that begins where `COPY` begins a line is read by a worker as it is read in the
whole file, so the workers together load the records of the file.  The splitters cut after
newline bytes, and not each of these ends a line: an escaped one is data, and behind an
end-of-data marker there are no lines.

## Main definitions

* `Loads` — what the ranges of a file have to be.
* `CutsAt` — the newlines at which a file may be cut.

## Main results

* `group_ends` — the ranges cover the file, in order.
* `parallelCopy_loads_iff` — exactly when the ranges load what one `COPY` loads.
-/

namespace PgColumnar.Copy

open Bytes List Nat

variable {f : File} {offs : List ℕ}

/-- The ranges cover the file, begin at line starts, and hold the records of the file. -/
structure Loads (f : File) (offs : List ℕ) : Prop where
  first : offs.head? = some 0
  last : offs.getLast? = some f.size
  ascending : offs.Pairwise (· ≤ ·)
  starts : ∀ o ∈ offs, o = f.size ∨ LineStart .unknown f.bytes o
  records : loadRanges f offs = copyFrom .unknown f.bytes

/-! ## What a worker reads -/

theorem length_read (f : File) (off want : ℕ) : (f.read off want).length = f.got off want := by
  have hle := (f.got_le off want).2
  rw [File.read, length_take, length_drop]
  omega

theorem read_append (f : File) (off want n : ℕ) (hn : f.got off want ≤ n) :
    f.read off want ++ (f.bytes.drop (off + f.got off want)).take (n - f.got off want) =
      (f.bytes.drop off).take n := by
  rw [File.read, ← drop_drop, ← take_add]
  congr 1
  omega

variable {fuel : ℕ}

/-- The callback returns the next bytes of the range. -/
theorem rangeReadLoop_eq {src : RangeSource} {left : ℕ} (hfuel : left ≤ fuel)
    (hsrc : src.pos + src.remaining ≤ f.size) :
    rangeReadLoop f fuel left src = ((f.bytes.drop src.pos).take (min left src.remaining),
        ⟨src.pos + min left src.remaining, src.remaining - min left src.remaining⟩) := by
  induction fuel generalizing left src with
  | zero =>
    have hleft : left = 0 := le_zero.mp hfuel
    simp [rangeReadLoop, hleft]
  | succ fuel ih =>
    rw [rangeReadLoop]
    split
    · next hpos =>
      have hgot := f.got_le src.pos (min left src.remaining)
      have hsome := f.got_pos src.pos (min left src.remaining) (by omega)
        (show src.pos < f.size by omega)
      generalize hm : min left src.remaining = m at hgot hsome ⊢
      have hne : ¬f.got src.pos m = 0 := ne_of_gt hsome
      have hmin : min (left - f.got src.pos m) (src.remaining - f.got src.pos m) =
          m - f.got src.pos m := by omega
      have hpos' : src.pos + f.got src.pos m + (m - f.got src.pos m) = src.pos + m := by omega
      have hrem' : src.remaining - f.got src.pos m - (m - f.got src.pos m) = src.remaining - m := by
        omega
      simp only [length_read, if_neg hne]
      rw [ih (by omega) (by dsimp only; omega)]
      simp only [hmin, read_append f src.pos m m hgot.1, hpos', hrem']
    · next hnot =>
      have hmin : min left src.remaining = 0 := by omega
      simp [hmin]

theorem drain_eq {src : RangeSource} (hfuel : src.remaining < fuel)
    (hsrc : src.pos + src.remaining ≤ f.size) :
    drain f fuel src = (f.bytes.drop src.pos).take src.remaining := by
  induction fuel generalizing src with
  | zero => omega
  | succ fuel ih =>
    have hlen : ((f.bytes.drop src.pos).take (min rawBufSize src.remaining)).length =
        min rawBufSize src.remaining := by
      have hsize : src.pos + src.remaining ≤ f.bytes.length := hsrc
      rw [length_take, length_drop]
      omega
    simp only [drain, rangeRead, rangeReadLoop_eq (le_refl _) hsrc, hlen]
    split
    · next hzero =>
      have hrem : src.remaining = 0 := by
        have hbuf : rawBufSize = 65536 := rfl
        omega
      simp [hrem]
    · next hpos =>
      rw [ih (by dsimp only; omega) (by dsimp only; omega)]
      dsimp only
      rw [← drop_drop, ← take_add]
      congr 1
      omega

/-- A worker hands exactly the bytes of its range to `COPY`. -/
theorem rangeBytes_eq {a b : ℕ} (hab : a ≤ b) (hb : b ≤ f.size) :
    rangeBytes f a b = (f.bytes.drop a).take (b - a) :=
  drain_eq (lt_succ_self _) (by dsimp only; omega)

/-! ## Ranges that begin at line starts -/

variable {recs : List (List Byte)}

/-- The records from a line start on are loaded range by range. -/
theorem loadRanges_eq {a : ℕ} (hasc : (a :: offs).Pairwise (· ≤ ·))
    (hlast : (a :: offs).getLast? = some f.size)
    (hstarts : ∀ o ∈ a :: offs, o = f.size ∨ LineStart .unknown f.bytes o)
    (hacc : copyFrom .unknown f.bytes = some recs) :
    loadRanges f (a :: offs) = copyFrom .unknown (f.bytes.drop a) := by
  induction offs generalizing a with
  | nil =>
    have ha : a = f.size := Option.some.inj hlast
    have hnil : f.bytes.drop f.size = [] := drop_of_length_le (le_refl _)
    rw [ha, hnil, copyFrom_nil]
    rfl
  | cons b offs ih =>
    obtain ⟨hle, hrest⟩ := pairwise_cons.mp hasc
    have hab : a ≤ b := hle b mem_cons_self
    have hlast' : (b :: offs).getLast? = some f.size := by
      rw [← hlast, getLast?_cons_cons]
    have hb : b ≤ f.size := by
      rcases mem_cons.mp (mem_of_getLast? hlast') with heq | hmem
      · exact le_of_eq heq.symm
      · exact (pairwise_cons.mp hrest).1 _ hmem
    have hmore := ih hrest hlast' fun o ho => hstarts o (mem_cons_of_mem _ ho)
    rw [loadRanges, rangeBytes_eq hab hb, hmore]
    have hdrop : f.bytes.drop b = (f.bytes.drop a).drop (b - a) := by
      rw [drop_drop, Nat.add_sub_cancel' hab]
    rcases hstarts b (mem_cons_of_mem _ mem_cons_self) with hend | hstart
    · -- the rest of the file
      have hall : (f.bytes.drop a).take (b - a) = f.bytes.drop a := by
        apply take_of_length_le
        rw [length_drop, hend]
        exact le_refl _
      have hnil : f.bytes.drop b = [] := drop_of_length_le (le_of_eq hend.symm)
      rw [hall, hnil, copyFrom_nil]
      simp
    · have hafter : ∃ recs', copyFrom .unknown (f.bytes.drop a) = some recs' ∧
          LineStart .unknown (f.bytes.drop a) (b - a) := by
        rcases hstarts a mem_cons_self with hend | hstart'
        · have hba : b = a := le_antisymm (hend ▸ hb) hab
          rw [hba, hend, Nat.sub_self]
          have hnil : f.bytes.drop f.size = [] := drop_of_length_le (le_refl _)
          rw [hnil]
          exact ⟨[], copyFrom_nil _, .first⟩
        · obtain ⟨_, r₂, _, h₂, _⟩ := copyFrom_append hstart' hacc
          exact ⟨r₂, h₂, hstart'.drop hstart hab hacc⟩
      obtain ⟨recs', hrecs', hstart'⟩ := hafter
      obtain ⟨r₁, r₂, h₁, h₂, heq⟩ := copyFrom_append hstart' hrecs'
      rw [h₁, hdrop, h₂, hrecs', heq]
      rfl

/-- The newline at this byte ends a line: it is not escaped, and no end-of-data marker
begins before it.  At the end of the file it does not matter. -/
def CutsAt (f : File) (p : ℕ) : Prop := p + 1 = f.size ∨ reaches f.bytes p = true

/-- Ranges cut after newlines load the records of the file just when these newlines end
lines. -/
theorem loads_iff (hfirst : offs.head? = some 0) (hlast : offs.getLast? = some f.size)
    (hasc : offs.Pairwise (· ≤ ·))
    (hnewline : ∀ o ∈ offs, o = 0 ∨ o = f.size ∨ ∃ p, o = p + 1 ∧ f.bytes[p]? = some lf)
    (hacc : copyFrom .unknown f.bytes = some recs) :
    Loads f offs ↔ ∀ p, p + 1 ∈ offs → CutsAt f p := by
  constructor
  · intro h p hp
    by_cases hend : p + 1 = f.size
    · exact .inl hend
    rcases hnewline _ hp with h0 | h1 | ⟨q, hq, hget⟩
    · omega
    · exact absurd h1 hend
    · have hqp : q = p := by omega
      rw [hqp] at hget
      rcases h.starts _ hp with h1 | hstart
      · exact absurd h1 hend
      · exact .inr (reaches_of_lineStart hstart hget)
  · intro h
    have hstarts : ∀ o ∈ offs, o = f.size ∨ LineStart .unknown f.bytes o := by
      intro o ho
      rcases hnewline o ho with rfl | h1 | ⟨p, rfl, hget⟩
      · exact .inr .first
      · exact .inl h1
      · rcases h p ho with hend | hreach
        · exact .inl hend
        · exact .inr (lineStart_of_reaches hacc hget hreach)
    refine ⟨hfirst, hlast, hasc, hstarts, ?_⟩
    cases offs with
    | nil => cases hfirst
    | cons a offs =>
      cases Option.some.inj hfirst
      rw [loadRanges_eq hasc hlast hstarts hacc]
      rfl

/-! ## Even ranges -/

/-- The first newline at or after `s`. -/
structure FirstNewline (bytes : List Byte) (s p : ℕ) : Prop where
  le : s ≤ p
  newline : bytes[p]? = some lf
  first : ∀ q, s ≤ q → q < p → bytes[q]? ≠ some lf

/-- Where the range that is split at `s` begins. -/
def Boundary (bytes : List Byte) (s o : ℕ) : Prop :=
  (∃ p, FirstNewline bytes s p ∧ o = p + 1) ∨ o = bytes.length ∧ ∀ q, s ≤ q → bytes[q]? ≠ some lf

variable {bytes : List Byte}

theorem Boundary.le_length {s o : ℕ} (h : Boundary bytes s o) : o ≤ bytes.length := by
  rcases h with ⟨p, hp, rfl⟩ | ⟨rfl, _⟩
  · exact (List.getElem?_eq_some_iff.mp hp.newline).1
  · exact le_refl _

theorem Boundary.mono {s s' o o' : ℕ} (h : Boundary bytes s o)
    (h' : Boundary bytes s' o') (hs : s ≤ s') : o ≤ o' := by
  rcases h' with ⟨p', hp', rfl⟩ | ⟨rfl, _⟩
  · have hsp : s ≤ p' := le_trans hs hp'.le
    rcases h with ⟨p, hp, rfl⟩ | ⟨_, hnone⟩
    · by_contra hlt
      exact hp.first p' hsp (by omega) hp'.newline
    · exact absurd hp'.newline (hnone p' hsp)
  · exact h.le_length

theorem splitPoint_mono (size : ℕ) {i j nranges : ℕ} (hn : 0 < nranges) (hij : i ≤ j) :
    splitPoint size i nranges ≤ splitPoint size j nranges := by
  apply Round.quotTrunc_mono (by decide) hn
  exact Round.roundBits_mono (by decide) one_pos (mul_le_mul_left _ hij)

/-- The split points up to `pos` have their boundary, and the others no newline so far. -/
structure Scanned (bytes : List Byte) (nranges pos : ℕ) (offs : List ℕ) : Prop where
  first : offs.head? = some 0
  length_le : offs.length ≤ nranges
  filled : ∀ i o, 0 < i → offs[i]? = some o →
    ∃ p, FirstNewline bytes (splitPoint bytes.length i nranges) p ∧ o = p + 1
  later : ∀ i, offs.length ≤ i → i < nranges → ∀ q < pos,
    splitPoint bytes.length i nranges ≤ q → bytes[q]? ≠ some lf

theorem takeWhile_range' (p : ℕ → Bool) (a k : ℕ) :
    ∃ j ≤ k, (List.range' a k).takeWhile p = List.range' a j ∧
      (∀ i, a ≤ i → i < a + j → p i = true) ∧ (j < k → p (a + j) = false) := by
  induction k generalizing a with
  | zero => exact ⟨0, le_refl _, rfl, fun i h h' => by omega, by omega⟩
  | succ k ih =>
    rw [range'_succ, takeWhile_cons]
    cases hp : p a with
    | false => exact ⟨0, zero_le _, rfl, fun i h h' => by omega, fun _ => hp⟩
    | true =>
      obtain ⟨j, hj, htake, hall, hstop⟩ := ih (a + 1)
      refine ⟨j + 1, succ_le_succ hj, ?_, ?_, ?_⟩
      · rw [if_pos rfl, htake, range'_succ]
      · intro i hi hlt
        rcases eq_or_lt_of_le hi with rfl | hi
        · exact hp
        · exact hall i hi (by omega)
      · intro hlt
        rw [← add_assoc, add_right_comm]
        exact hstop (by omega)

variable {n : ℕ}

theorem Scanned.fillBoundary {pos : ℕ} (h : Scanned bytes n pos offs)
    (hn : 0 < n) (hpos : bytes[pos]? = some lf) :
    Scanned bytes n (pos + 1) (fillBoundary bytes.length n pos offs) := by
  obtain ⟨j, hj, htake, hall, hstop⟩ := takeWhile_range'
    (fun next => splitPoint bytes.length next n ≤ pos) offs.length (n - offs.length)
  have hle := h.length_le
  have hfill : Copy.fillBoundary bytes.length n pos offs = offs ++ List.replicate j (pos + 1) := by
    rw [Copy.fillBoundary, htake, map_const', length_range']
  have hlen : (Copy.fillBoundary bytes.length n pos offs).length = offs.length + j := by
    rw [hfill, length_append, length_replicate]
  refine ⟨?_, by omega, ?_, ?_⟩
  · rw [hfill, head?_append, h.first]
    rfl
  · intro i o hi ho
    rw [hfill] at ho
    rcases lt_or_ge i offs.length with hlt | hge
    · rw [getElem?_append_left hlt] at ho
      exact h.filled i o hi ho
    · rw [getElem?_append_right hge] at ho
      obtain ⟨hlt, heq⟩ := List.getElem?_eq_some_iff.mp ho
      rw [getElem_replicate] at heq
      rw [length_replicate] at hlt
      have hsplit : splitPoint bytes.length i n ≤ pos :=
        of_decide_eq_true (hall i hge (by omega))
      refine ⟨pos, ⟨hsplit, hpos, ?_⟩, heq.symm⟩
      intro q hq hqpos
      exact h.later i hge (by omega) q hqpos hq
  · intro i hi hin q hq hsplit
    rw [hlen] at hi
    -- the first split point that was not reached lies behind the newline
    have hnot := of_decide_eq_false (hstop (by omega))
    have hmono := splitPoint_mono bytes.length hn hi
    omega

theorem Scanned.scanBuffer (hn : 0 < n) {pos : ℕ} {buf : List Byte}
    (h : Scanned bytes n pos offs) (hbuf : buf <+: bytes.drop pos) :
    Scanned bytes n (pos + buf.length) (scanBuffer bytes.length n pos buf offs) := by
  induction buf generalizing pos offs with
  | nil => exact h
  | cons c buf ih =>
    obtain ⟨rest, hrest⟩ := hbuf
    have hget : bytes[pos]? = some c := by
      rw [← add_zero pos, ← getElem?_drop, ← hrest]
      rfl
    have hbuf' : buf <+: bytes.drop (pos + 1) := by
      rw [← drop_drop, ← hrest]
      exact ⟨rest, rfl⟩
    have hlen : pos + (c :: buf).length = pos + 1 + buf.length := by
      rw [length_cons]
      omega
    rw [Copy.scanBuffer, hlen]
    apply ih _ hbuf'
    split
    · next hc => exact h.fillBoundary hn (hc ▸ hget)
    · next hc =>
      refine ⟨h.first, h.length_le, h.filled, ?_⟩
      intro i hi hin q hq hsplit
      rcases Nat.lt_succ_iff_lt_or_eq.mp hq with hlt | rfl
      · exact h.later i hi hin q hlt hsplit
      · rw [hget]
        exact fun heq => hc (Option.some.inj heq)

/-- The scan stops when all split points have their boundary, or at the end of the file. -/
theorem Scanned.scanFile (hn : 0 < n) {bufbase : ℕ}
    (h : Scanned f.bytes n bufbase offs) (hfuel : f.size - bufbase < fuel)
    (hbase : bufbase ≤ f.size) :
    ∃ pos, Scanned f.bytes n pos (scanFile f n fuel bufbase offs) ∧
      (pos = f.size ∨ (Copy.scanFile f n fuel bufbase offs).length = n) := by
  induction fuel generalizing bufbase offs with
  | zero => omega
  | succ fuel ih =>
    rw [Copy.scanFile]
    split
    · next hcond =>
      have hgot := (f.got_le bufbase splitScanChunk).2
      have hsome := f.got_pos bufbase splitScanChunk (by decide) hcond.2
      have hsize : f.size = f.bytes.length := rfl
      dsimp only
      rw [length_read, if_neg (ne_of_gt hsome)]
      have hbuf := h.scanBuffer hn ( take_prefix (f.got bufbase splitScanChunk) _)
      have hlen := length_read f bufbase splitScanChunk
      rw [File.read] at hlen
      rw [hlen] at hbuf
      exact ih hbuf (by omega) (by omega)
    · next hcond =>
      refine ⟨bufbase, h, ?_⟩
      have hle := h.length_le
      omega

/-- Every range but the first begins after the first newline from its split point on. -/
theorem lineOffsets_spec (hn : 0 < n) :
    (lineOffsets f n).head? = some 0 ∧ (lineOffsets f n).length = n + 1 ∧
      (lineOffsets f n)[n]? = some f.size ∧
      ∀ i o, 0 < i → i < n → (lineOffsets f n)[i]? = some o →
        Boundary f.bytes (splitPoint f.size i n) o := by
  have hinit : Scanned f.bytes n 0 [0] := by
    refine ⟨rfl, hn, ?_, by omega⟩
    intro i o hi ho
    have hlt := (List.getElem?_eq_some_iff.mp ho).1
    rw [length_singleton] at hlt
    omega
  obtain ⟨pos, hscan, hend⟩ := hinit.scanFile hn (lt_succ_self _) (zero_le _)
  rw [Nat.sub_zero, Nat.succ_eq_add_one] at hscan hend
  rw [lineOffsets]
  generalize scanFile f n (f.size + 1) 0 [0] = offs at hscan hend ⊢
  have hle := hscan.length_le
  have hlen : (offs ++ List.replicate (n - offs.length) f.size).length = n := by
    rw [length_append, length_replicate]
    omega
  refine ⟨?_, ?_, ?_, ?_⟩
  · rw [append_assoc, head?_append, hscan.first]
    rfl
  · rw [length_append, hlen]
    rfl
  · rw [getElem?_append_right (le_of_eq hlen), hlen, Nat.sub_self]
    rfl
  · intro i o hi hin ho
    rw [getElem?_append_left (by omega)] at ho
    rcases lt_or_ge i offs.length with hlt | hge
    · rw [getElem?_append_left hlt] at ho
      obtain ⟨p, hp, rfl⟩ := hscan.filled i o hi ho
      exact .inl ⟨p, hp, rfl⟩
    · rw [getElem?_append_right hge] at ho
      obtain ⟨hlt, heq⟩ := List.getElem?_eq_some_iff.mp ho
      rw [getElem_replicate] at heq
      refine .inr ⟨heq.symm, fun q hq hget => ?_⟩
      have hpos : pos = f.size := by
        rcases hend with hpos | hall
        · exact hpos
        · omega
      have hqlt := (List.getElem?_eq_some_iff.mp hget).1
      exact hscan.later i hge hin q (by rw [hpos]; exact hqlt) hq hget

theorem lineOffsets_pairwise (hn : 0 < n) : (lineOffsets f n).Pairwise (· ≤ ·) := by
  obtain ⟨hfirst, hlen, hlast, hspec⟩ := lineOffsets_spec (f := f) hn
  rw [pairwise_iff_getElem]
  intro i j hi hj hij
  have hgeti := getElem?_eq_getElem hi
  have hgetj := getElem?_eq_getElem hj
  rcases Nat.eq_zero_or_pos i with rfl | hi0
  · rw [head?_eq_getElem?, hgeti] at hfirst
    rw [Option.some.inj hfirst]
    exact zero_le _
  · have hbi := hspec i _ hi0 (by omega) hgeti
    rcases lt_or_ge j n with hjn | hjn
    · exact hbi.mono (hspec j _ (by omega) hjn hgetj) (splitPoint_mono _ hn (le_of_lt hij))
    · have hj' : j = n := by omega
      subst hj'
      rw [hgetj] at hlast
      rw [Option.some.inj hlast]
      exact hbi.le_length

/-- For a single table: the first newline from each split point on has to end a line. -/
theorem lineOffsets_iff (hn : 0 < n) (hacc : copyFrom .unknown f.bytes = some recs) :
    Loads f (lineOffsets f n) ↔
      ∀ i p, 0 < i → i < n → FirstNewline f.bytes (splitPoint f.size i n) p → CutsAt f p := by
  obtain ⟨hfirst, hlen, hlast, hspec⟩ := lineOffsets_spec (f := f) hn
  -- an offset is the first, the last, or one of those between
  have hcases : ∀ o ∈ lineOffsets f n, o = 0 ∨ o = f.size ∨
      ∃ i, 0 < i ∧ i < n ∧ Boundary f.bytes (splitPoint f.size i n) o := by
    intro o ho
    obtain ⟨i, hget⟩ := mem_iff_getElem?.mp ho
    have hlt := (List.getElem?_eq_some_iff.mp hget).1
    rcases Nat.eq_zero_or_pos i with rfl | hi
    · rw [head?_eq_getElem?, hget] at hfirst
      exact .inl (Option.some.inj hfirst)
    · rcases lt_or_ge i n with hin | hin
      · exact .inr (.inr ⟨i, hi, hin, hspec i o hi hin hget⟩)
      · have hi' : i = n := by omega
        rw [hi', hlast] at hget
        exact .inr (.inl (Option.some.inj hget).symm)
  rw [loads_iff hfirst ?_ (lineOffsets_pairwise hn) ?_ hacc]
  · constructor
    · intro h i p hi hin hp
      obtain ⟨o, ho⟩ : ∃ o, (lineOffsets f n)[i]? = some o :=
        ⟨_, getElem?_eq_getElem (by omega)⟩
      have hmem := mem_of_getElem? ho
      rcases hspec i o hi hin ho with ⟨p', hp', rfl⟩ | ⟨_, hnone⟩
      · have hpp : p' = p := by
          by_contra hne
          rcases lt_or_gt_of_ne hne with hlt | hlt
          · exact hp.first p' hp'.le hlt hp'.newline
          · exact hp'.first p hp.le hlt hp.newline
        rw [hpp] at hmem
        exact h p hmem
      · exact absurd hp.newline (hnone p hp.le)
    · intro h p hp
      rcases hcases _ hp with h0 | hend | ⟨i, hi, hin, ⟨p', hp', heq⟩ | ⟨hend, _⟩⟩
      · omega
      · exact .inl hend
      · have hpp : p = p' := by omega
        rw [hpp]
        exact h i p' hi hin hp'
      · exact .inl hend
  · rw [getLast?_eq_getElem?, hlen]
    exact hlast
  · intro o ho
    rcases hcases o ho with h0 | hend | ⟨i, _, _, ⟨p, hp, heq⟩ | ⟨hend, _⟩⟩
    · exact .inl h0
    · exact .inr (.inl hend)
    · exact .inr (.inr ⟨p, heq, hp.newline⟩)
    · exact .inr (.inl hend)

/-! ## Ranges of whole partitions -/

/-- An offset at which a line of the scan may begin. -/
def AfterNewline (bytes : List Byte) (o : ℕ) : Prop :=
  o = 0 ∨ o = bytes.length ∨ ∃ p, o = p + 1 ∧ bytes[p]? = some lf

theorem getline_spec {l : List Byte} (hl : l ≠ []) : l = (getline l).1 ++ (getline l).2 ∧
    0 < (getline l).1.length ∧ ((getline l).2 ≠ [] → l[(getline l).1.length - 1]? = some lf) := by
  have hsplit := takeWhile_append_dropWhile (p := (· ≠ lf)) (l := l)
  have hhead := head?_dropWhile_not (· ≠ lf) l
  unfold getline
  split
  · exact ⟨(append_nil l).symm, length_pos_iff.mpr hl, fun h => absurd rfl h⟩
  · next c rest hdrop =>
    rw [hdrop] at hsplit hhead
    have hc : c = lf := by simpa using hhead
    generalize l.takeWhile (· ≠ lf) = front at hsplit ⊢
    refine ⟨?_, by simp, fun _ => ?_⟩
    · rw [append_assoc]
      exact hsplit.symm
    · simp [← hsplit, hc]

/-- The offsets noted so far are begins of lines, in order. -/
structure SegStart (bytes : List Byte) (off : ℕ) (segStart : List ℕ) : Prop where
  first : segStart.head? = some 0
  ascending : segStart.Pairwise (· ≤ ·)
  le : ∀ o ∈ segStart, o ≤ off
  newline : ∀ o ∈ segStart, AfterNewline bytes o

variable {seg : List ℕ}

/-- The begin of a line is noted for the partitions that are passed. -/
theorem SegStart.append {off : ℕ} (h : SegStart bytes off seg)
    (hoff : AfterNewline bytes off) (k : ℕ) : SegStart bytes off (seg ++ List.replicate k off) where
  first := by
    rw [head?_append, h.first]
    rfl
  ascending := by
    rw [pairwise_append]
    refine ⟨h.ascending, pairwise_replicate_of_refl, ?_⟩
    intro a ha b hb
    rw [eq_of_mem_replicate hb]
    exact h.le a ha
  le o ho := by
    rcases mem_append.mp ho with ho | ho
    · exact h.le o ho
    · exact le_of_eq (eq_of_mem_replicate ho)
  newline o ho := by
    rcases mem_append.mp ho with ho | ho
    · exact h.newline o ho
    · rw [eq_of_mem_replicate ho]
      exact hoff

theorem SegStart.mono {off off' : ℕ}
    (h : SegStart bytes off seg) (hle : off ≤ off') : SegStart bytes off' seg :=
  ⟨h.first, h.ascending, fun o ho => le_trans (h.le o ho) hle, h.newline⟩

variable {κ : Type} {t : Target κ}

theorem scanRows_segStart {bounds : List (Bound κ)} {l : List Byte}
    {s s' : Scan} (h : SegStart bytes s.off s.segStart) (hoff : AfterNewline bytes s.off)
    (hl : bytes.drop s.off = l) (hle : s.off ≤ bytes.length)
    (hscan : scanRows t bounds fuel l s = .ok s') :
    SegStart bytes bytes.length s'.segStart := by
  induction fuel generalizing l s with
  | zero =>
    cases hscan
    exact h.mono hle
  | succ fuel ih =>
    rw [scanRows] at hscan
    split at hscan
    · cases hscan
      exact h.mono hle
    · next hne =>
      obtain ⟨hsplit, hpos, hlast⟩ := getline_spec hne
      split at hscan
      · cases hscan
      · split_ifs at hscan
        have hlen : l.length = bytes.length - s.off := by rw [← hl, length_drop]
        have hparts := congrArg List.length hsplit
        rw [length_append] at hparts
        have hdrop : bytes.drop (s.off + (getline l).1.length) = (getline l).2 := by
          have hrest := congrArg (List.drop (getline l).1.length) hsplit
          rw [drop_left] at hrest
          rw [← drop_drop, hl, hrest]
        refine ih ((h.append hoff _).mono (le_add_right _ _)) ?_ hdrop (by dsimp only; omega) hscan
        -- a line begins after the newline of the line before, or there is none
        by_cases hrest : (getline l).2 = []
        · right
          left
          rw [hrest] at hparts
          simp only [length_nil] at hparts
          dsimp only
          omega
        · refine .inr (.inr ⟨s.off + ((getline l).1.length - 1), by dsimp only; omega, ?_⟩)
          rw [← getElem?_drop, hl]
          exact hlast hrest

theorem segments_segStart (h : segments t f = .ok seg) : SegStart f.bytes f.size seg := by
  have hsize : AfterNewline f.bytes f.size := .inr (.inl rfl)
  have hinit : SegStart f.bytes 0 [0] :=
    ⟨rfl, pairwise_singleton _ _, by simp, fun o ho => .inl (mem_singleton.mp ho)⟩
  unfold segments at h
  split at h
  · cases h
  split at h
  · cases h
  split at h
  · cases h
  split at h
  · cases h
  split at h
  · cases h
  split_ifs at h
  cases hscan : scanRows t _ (f.size + 1) f.bytes ⟨0, 0, [0]⟩ with
  | error e =>
    rw [hscan] at h
    cases h
  | ok s =>
    rw [hscan] at h
    cases h
    have hseg := scanRows_segStart (s := ⟨0, 0, [0]⟩) hinit (.inl rfl) rfl (zero_le _) hscan
    exact (hseg.append hsize _).append hsize 1

/-- What the balance picks are segment ends, in order. -/
theorem balance_sublist (target workers segStart running : ℕ) (seg woff : List ℕ) :
    ∃ picked, picked.Sublist seg ∧
      balance target workers segStart running seg woff = woff ++ picked := by
  induction seg generalizing segStart running woff with
  | nil => exact ⟨[], .slnil, (append_nil woff).symm⟩
  | cons segEnd seg ih =>
    rw [balance]
    split
    · split
      · obtain ⟨picked, hsub, heq⟩ := ih segEnd (running + (segEnd - segStart)) (woff ++ [segEnd])
        exact ⟨segEnd :: picked, hsub.cons_cons _, by rw [heq, append_assoc]; rfl⟩
      · obtain ⟨picked, hsub, heq⟩ := ih segEnd (running + (segEnd - segStart)) woff
        exact ⟨picked, hsub.cons _, heq⟩
    · exact ⟨[], nil_sublist _, (append_nil woff).symm⟩

theorem balance_length {workers : ℕ} (target segStart running : ℕ) (seg : List ℕ)
    {woff : List ℕ} (h : woff.length ≤ workers) :
    (balance target workers segStart running seg woff).length ≤ workers := by
  induction seg generalizing segStart running woff with
  | nil => exact h
  | cons segEnd seg ih =>
    rw [balance]
    split
    · apply ih
      split
      · rw [length_append, length_singleton]
        omega
      · exact h
    · exact h

/-- The ranges end at the picked segment ends, and the rest at the end of the file. -/
theorem group_eq (size workers : ℕ) (seg : List ℕ) : ∃ picked k, picked.Sublist seg.tail ∧
    cuts size workers seg = 0 :: picked ∧
      group size workers seg = 0 :: picked ++ List.replicate (k + 1) size := by
  have hworkers : [0].length ≤ groupWorkers workers seg := le_max_left _ _
  have hlen := balance_length (size / groupWorkers workers seg) 0 0 seg.tail hworkers
  obtain ⟨picked, hsub, hcuts⟩ := balance_sublist (size / groupWorkers workers seg)
    (groupWorkers workers seg) 0 0 seg.tail [0]
  have hcuts : cuts size workers seg = 0 :: picked := hcuts
  obtain ⟨k, hk⟩ : ∃ k, groupWorkers workers seg + 1 - (cuts size workers seg).length = k + 1 :=
    Nat.exists_eq_add_one.mpr (Nat.sub_pos_of_lt (Nat.lt_succ_of_le hlen))
  exact ⟨picked, k, hsub, hcuts, by rw [group, hk, hcuts]⟩

theorem length_group (size workers : ℕ) (seg : List ℕ) :
    (group size workers seg).length = groupWorkers workers seg + 1 := by
  have hworkers : [0].length ≤ groupWorkers workers seg := le_max_left _ _
  have hlen := balance_length (size / groupWorkers workers seg) 0 0 seg.tail hworkers
  have hcuts : (cuts size workers seg).length ≤ groupWorkers workers seg := hlen
  rw [group, length_append, length_replicate]
  omega

/-- The ranges cover the file, in order. -/
theorem group_ends (hstart : SegStart f.bytes f.size seg) (workers : ℕ) :
    (group f.size workers seg).head? = some 0 ∧ (group f.size workers seg).getLast? = some f.size ∧
      (group f.size workers seg).Pairwise (· ≤ ·) := by
  obtain ⟨picked, k, hsub, -, hgroup⟩ := group_eq f.size workers seg
  have hmem : ∀ o ∈ picked, o ∈ seg := fun o ho => mem_of_mem_tail (hsub.subset ho)
  rw [hgroup]
  refine ⟨rfl, ?_, ?_⟩
  · rw [replicate_succ', ← append_assoc]
    exact getLast?_concat
  · rw [pairwise_append]
    refine ⟨?_, pairwise_replicate_of_refl, ?_⟩
    · refine pairwise_cons.mpr ⟨fun o _ => zero_le o, ?_⟩
      exact hstart.ascending.sublist (hsub.trans (tail_sublist _))
    · intro a ha b hb
      rw [eq_of_mem_replicate hb]
      rcases mem_cons.mp ha with rfl | ha
      · exact zero_le _
      · exact hstart.le a (hmem a ha)

/-- For a partitioned target: the newlines before the segment ends at which ranges end have
to end lines. -/
theorem group_iff (hseg : segments t f = .ok seg) (workers : ℕ)
    (hacc : copyFrom .unknown f.bytes = some recs) :
    Loads f (group f.size workers seg) ↔ ∀ p, p + 1 ∈ cuts f.size workers seg → CutsAt f p := by
  have hstart := segments_segStart hseg
  obtain ⟨hfirst, hlast, hasc⟩ := group_ends hstart workers
  obtain ⟨picked, k, hsub, hcuts, hgroup⟩ := group_eq f.size workers seg
  have hall : ∀ o ∈ group f.size workers seg, o ∈ 0 :: picked ∨ o = f.size := by
    intro o ho
    rw [hgroup] at ho
    rcases mem_append.mp ho with ho | ho
    · exact .inl ho
    · exact .inr (eq_of_mem_replicate ho)
  rw [loads_iff hfirst hlast hasc ?_ hacc, hcuts]
  · constructor
    · intro h p hp
      apply h p
      rw [hgroup]
      exact mem_append_left _ hp
    · intro h p hp
      rcases hall _ hp with hp | hend
      · exact h p hp
      · exact .inl hend
  · intro o ho
    rcases hall o ho with ho | hend
    · rcases mem_cons.mp ho with rfl | ho
      · exact .inl rfl
      · exact hstart.newline o (mem_of_mem_tail (hsub.subset ho))
    · exact .inr (.inl hend)

/-- **Parallel COPY.**  For a file that `COPY` accepts, the ranges for a single table load its
records if and only if the first newline from each split point on ends a line; those for a
partitioned target, if and only if the newlines at which the ranges are cut do. -/
theorem parallelCopy_loads_iff (f : File) (recs : List (List Byte))
    (hacc : copyFrom .unknown f.bytes = some recs) :
    (∀ nranges, 0 < nranges → (Loads f (lineOffsets f nranges) ↔
      ∀ i p, 0 < i → i < nranges → FirstNewline f.bytes (splitPoint f.size i nranges) p →
        CutsAt f p)) ∧
    ∀ (κ : Type) (t : Target κ) (workers : ℕ) (seg : List ℕ), segments t f = .ok seg →
      partitionAlignedOffsets t f workers = .ok (group f.size workers seg) ∧
        (Loads f (group f.size workers seg) ↔
          ∀ p, p + 1 ∈ cuts f.size workers seg → CutsAt f p) := by
  refine ⟨fun nranges hn => lineOffsets_iff hn hacc, ?_⟩
  intro κ t workers seg hseg
  refine ⟨?_, group_iff hseg workers hacc⟩
  rw [partitionAlignedOffsets, hseg]
  rfl

/-- Three rows with `\r\n` behind each, the second one with an escape, and the end-of-data
marker. -/
def threeRows : File :=
  .regular [49, 13, 10, 50, 92, 116, 13, 10, 51, 13, 10, 92, 46, 13, 10]

/-- Two partitions by the first byte of a line. -/
def firstByteTarget : Target ℕ where
  strategy := .range
  partnatts := 1
  partattr := 1
  bounds := some [.minvalue, .datum 51, .maxvalue]
  defaultIndex := none
  atts := []
  category := 'N'
  input line := line.head?.map BitVec.toNat
  cmp a b := a - b

theorem parallelCopy_loads_threeRows : Loads threeRows (lineOffsets threeRows 2) ∧
    partitionAlignedOffsets firstByteTarget threeRows 2 = .ok [0, 8, 15] ∧
      Loads threeRows [0, 8, 15] := by
  have hacc : copyFrom .unknown threeRows.bytes = some [[49], [50, 92, 116], [51]] := by
    decide +kernel
  have hall : ∀ p < 15, threeRows.bytes[p]? = some lf → CutsAt threeRows p := by
    unfold CutsAt
    decide
  have hseg : segments firstByteTarget threeRows = .ok [0, 0, 8, 15, 15] := by rfl
  obtain ⟨hsingle, hpartitioned⟩ := parallelCopy_loads_iff threeRows _ hacc
  obtain ⟨hoffs, hloads⟩ := hpartitioned ℕ firstByteTarget 2 _ hseg
  refine ⟨(hsingle 2 (by decide)).mpr ?_, hoffs, hloads.mpr ?_⟩
  · intro i p _ _ hp
    exact hall p (List.getElem?_eq_some_iff.mp hp.newline).1 hp.newline
  · intro p hp
    obtain rfl : p = 7 := by
      have hcuts : cuts threeRows.size 2 [0, 0, 8, 15, 15] = [0, 8] := by decide
      rw [hcuts] at hp
      simpa using hp
    exact hall 7 (by decide) (by decide)

/-- One row: `a`, an escaped newline, `b`. -/
def escapedNewline : File := .regular [97, 92, 10, 98, 10]

/-- The two workers load two rows. -/
theorem not_parallelCopy_loads_escapedNewline :
    copyFrom .unknown escapedNewline.bytes = some [[97, 92, 10, 98]] ∧
      lineOffsets escapedNewline 2 = [0, 3, 5] ∧
      loadRanges escapedNewline (lineOffsets escapedNewline 2) = some [[97, 92, 10], [98]] ∧
      ¬Loads escapedNewline (lineOffsets escapedNewline 2) := by
  have hacc : copyFrom .unknown escapedNewline.bytes = some [[97, 92, 10, 98]] := by
    decide +kernel
  have hload : loadRanges escapedNewline (lineOffsets escapedNewline 2) =
      some [[97, 92, 10], [98]] := by
    decide +kernel
  refine ⟨hacc, by decide +kernel, hload, fun h => ?_⟩
  have hrecords := h.records
  rw [hload, hacc] at hrecords
  revert hrecords
  decide

end PgColumnar.Copy
